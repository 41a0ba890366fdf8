import Mcpdef.Audit.Ledger
import Mcpdef.Inspect.RawSpans

/-!
# The scan as it was before

The scan that the pack had before it told where its matches are, and that it still answers as (`scan_eq_before`).  The old
search for a token goes on after the whole opening that it found, and so passes over one that overlaps it: no opening
overlaps itself but those that are of their own body's characters, where the one passed over only shortens the run.
-/

namespace Mcpdef.Inspect

open Spans

/-! ### Building a scanner -/

/-- A text without the whitespace around it. -/
def trim (text : List Char) : List Char :=
  ((text.dropWhile Audit.isWhitespace).reverse.dropWhile Audit.isWhitespace).reverse

namespace Scanner

/-- With the operator's phrases, without the empty ones. -/
def withExtraInjection (s : Scanner) (phrases : List String) : Scanner :=
  { s with
    extraInjection :=
      (phrases.map fun p => String.ofList ((trim p.toList).map Char.toLower)).filter fun p => !p.toList.isEmpty }

/-- With the operator's substrings, without the blank ones. -/
def withExtraSecrets (s : Scanner) (substrings : List String) : Scanner :=
  { s with extraSecrets := substrings.filter fun e => !(trim e.toList).isEmpty }

end Scanner

/-- The built-in secret rules, in order. -/
def Rule.builtInSecrets : List Rule := [privateKey, awsAccessKey, slackToken, githubToken, stripeLiveKey]

/-- The id of the first credential shape in a text. -/
def secretPattern (text : List Char) : Option String :=
  (Rule.builtInSecrets.find? fun rule => !(secretSpans rule text).isEmpty).map Rule.id

/-! ### The scan before -/

namespace Before

def injectionPhrases : List (String × String) :=
  [("ignore previous instructions", "ignore-previous-instructions"),
    ("ignore all previous instructions", "ignore-previous-instructions"),
    ("ignore all prior instructions", "ignore-previous-instructions"),
    ("ignore the above instructions", "ignore-previous-instructions"),
    ("disregard previous instructions", "disregard-previous-instructions"),
    ("disregard all previous instructions", "disregard-previous-instructions"),
    ("disregard the above", "disregard-previous-instructions"),
    ("do not tell the user", "conceal-from-user"),
    ("do not mention this to the user", "conceal-from-user"),
    ("without telling the user", "conceal-from-user"),
    ("without informing the user", "conceal-from-user")]

/-- What is left of a text from each match of `needle` on; the next is looked for after the whole of the last, with
`skip` characters of it still to pass. -/
def matchIndices (needle : List Char) : Nat → List Char → List (List Char)
  | _, [] => []
  | skip + 1, _ :: cs => matchIndices needle skip cs
  | 0, c :: cs =>
    if needle.isPrefixOf (c :: cs) then (c :: cs) :: matchIndices needle (needle.length - 1) cs
    else matchIndices needle 0 cs

def tokenRun (text : List Char) (opening : String) (minLen : Nat) (allowed : Char → Bool) : Bool :=
  (matchIndices opening.toList 0 text).any fun rest =>
    minLen ≤ ((rest.drop opening.toList.length).takeWhile allowed).length

def secretRuleId (text : List Char) : Option String :=
  if holds "-----BEGIN".toList text && holds "PRIVATE KEY".toList text then some "private-key"
  else if tokenRun text "AKIA" 16 upperAlnum || tokenRun text "ASIA" 16 upperAlnum then some "aws-access-key"
  else if ["xoxb-", "xoxp-", "xoxa-", "xoxo-", "xoxr-", "xoxs-"].any fun pfx => tokenRun text pfx 10 alnumDash then
    some "slack-token"
  else if ["ghp_", "gho_", "ghs_", "ghu_", "ghr_"].any fun pfx => tokenRun text pfx 20 alnum then some "github-token"
  else if tokenRun text "github_pat_" 20 fun c => alnum c || c = '_' then some "github-token"
  else if tokenRun text "sk_live_" 16 alnum then some "stripe-live-key"
  else none

def scan (extraInjection extraSecrets : List String) (text : List Char) : Option Finding :=
  match secretRuleId text with
  | some id => some ⟨.secret, id⟩
  | none =>
    if extraSecrets.any fun e => holds e.toList text then some ⟨.secret, "custom-secret"⟩
    else
      let lower := text.map Char.toLower
      match injectionPhrases.find? fun p => holds p.1.toList lower with
      | some p => some ⟨.injection, p.2⟩
      | none =>
        if extraInjection.any fun p => holds p.toList lower then some ⟨.injection, "custom-injection"⟩ else none

end Before

/-! ### Runs -/

/-- A token's opening stands at the start of the text, with its body after it. -/
def Token.Runs (t : Token) (rest : List Char) : Prop :=
  t.opening.toList <+: rest ∧ t.min ≤ ((rest.drop t.opening.toList.length).takeWhile t.body).length

/-- An opening that does not overlap itself, or is of its body's characters. -/
def Token.separate (t : Token) : Bool :=
  t.opening.toList.all t.body ||
    (List.range t.opening.toList.length).all fun k => k = 0 || !(t.opening.toList.drop k).isPrefixOf t.opening.toList

theorem runs_of_mem_matchIndices {needle : List Char} {skip : Nat} {cs rest : List Char}
    (h : rest ∈ Before.matchIndices needle skip cs) : needle <+: rest ∧ rest <:+ cs := by
  induction cs generalizing skip with
  | nil => cases skip <;> cases h
  | cons c cs ih =>
    cases skip with
    | succ skip =>
      obtain ⟨hstands, hsuffix⟩ := ih h
      exact ⟨hstands, hsuffix.trans (List.suffix_cons c cs)⟩
    | zero =>
      rw [Before.matchIndices] at h
      split_ifs at h with hneedle
      · rcases List.mem_cons.mp h with rfl | h
        · exact ⟨List.isPrefixOf_iff_prefix.mp hneedle, List.suffix_rfl⟩
        · obtain ⟨hstands, hsuffix⟩ := ih h
          exact ⟨hstands, hsuffix.trans (List.suffix_cons c cs)⟩
      · obtain ⟨hstands, hsuffix⟩ := ih h
        exact ⟨hstands, hsuffix.trans (List.suffix_cons c cs)⟩

/-- Where a run overlaps an earlier match of its opening, that match runs too: the opening does not overlap itself, or
the run that is passed over is the end of a longer one. -/
theorem Token.Runs.of_overlap {t : Token} (ht : t.separate = true) {as rest : List Char} (hrun : t.Runs rest)
    (hstands : t.opening.toList <+: as ++ rest) (hpos : as ≠ []) (hlt : as.length < t.opening.toList.length) :
    t.Runs (as ++ rest) := by
  obtain ⟨⟨body, hrest⟩, hmin⟩ := hrun
  have hdrop : t.opening.toList.drop as.length <+: rest := by
    obtain ⟨after, hafter⟩ := hstands
    refine ⟨after, ?_⟩
    have happ := congrArg (List.drop as.length) hafter
    rwa [List.drop_append_of_le_length hlt.le, List.drop_left] at happ
  rw [Token.separate, Bool.or_eq_true, List.all_eq_true] at ht
  rcases ht with hall | hapart
  · refine ⟨hstands, hmin.trans ?_⟩
    have htext : (as ++ rest).drop t.opening.toList.length =
        t.opening.toList.drop (t.opening.toList.length - as.length) ++ body := by
      rw [List.drop_append, List.drop_eq_nil_of_le hlt.le, List.nil_append, ← hrest,
        List.drop_append_of_le_length (Nat.sub_le _ _)]
    have htake : (t.opening.toList.drop (t.opening.toList.length - as.length) ++ body).takeWhile t.body =
        t.opening.toList.drop (t.opening.toList.length - as.length) ++ body.takeWhile t.body :=
      List.takeWhile_append_of_pos fun c hc => hall c (List.mem_of_mem_drop hc)
    rw [htext, htake, ← hrest, List.drop_left, List.length_append]
    omega
  · have hself : t.opening.toList.drop as.length <+: t.opening.toList :=
      List.prefix_of_prefix_length_le hdrop ⟨body, hrest⟩ (by rw [List.length_drop]; omega)
    have hk := List.all_eq_true.mp hapart as.length (List.mem_range.mpr hlt)
    have hzero : as.length ≠ 0 := fun h => hpos (List.length_eq_zero_iff.mp h)
    rw [List.isPrefixOf_iff_prefix.mpr hself] at hk
    simp [hzero] at hk

/-- Whatever run there is, the search finds one. -/
theorem exists_runs_of_runs {t : Token} (ht : t.separate = true) (hne : t.opening.toList ≠ []) {as rest : List Char}
    (hrun : t.Runs rest) {skip : Nat} (hskip : skip ≤ as.length) :
    ∃ found ∈ Before.matchIndices t.opening.toList skip (as ++ rest), t.Runs found := by
  obtain ⟨hstands, -⟩ := id hrun
  have hrest : rest ≠ [] := hstands.ne_nil hne
  induction as generalizing skip with
  | nil =>
    obtain ⟨c, cs, rfl⟩ := List.exists_cons_of_ne_nil hrest
    obtain rfl : skip = 0 := Nat.le_zero.mp hskip
    rw [List.nil_append, Before.matchIndices, if_pos (List.isPrefixOf_iff_prefix.mpr hstands)]
    exact ⟨_, List.mem_cons_self, hrun⟩
  | cons a as ih =>
    cases skip with
    | succ skip => exact ih (Nat.le_of_succ_le_succ hskip)
    | zero =>
      rw [List.cons_append, Before.matchIndices]
      split_ifs with hneedle
      · have hearlier := List.isPrefixOf_iff_prefix.mp hneedle
        by_cases hlt : (a :: as).length < t.opening.toList.length
        · exact ⟨_, List.mem_cons_self, hrun.of_overlap ht hearlier (List.cons_ne_nil a as) hlt⟩
        · have hle : t.opening.toList.length - 1 ≤ as.length := by
            rw [List.length_cons] at hlt
            omega
          obtain ⟨found, hmem, hfound⟩ := ih hle
          exact ⟨found, List.mem_cons_of_mem _ hmem, hfound⟩
      · exact ih (Nat.zero_le _)

/-- The old search for a token. -/
theorem tokenRun_iff {t : Token} (ht : t.separate = true) (hne : t.opening.toList ≠ []) (text : List Char) :
    Before.tokenRun text t.opening t.min t.body = true ↔ ∃ as rest, text = as ++ rest ∧ t.Runs rest := by
  rw [Before.tokenRun, List.any_eq_true]
  constructor
  · rintro ⟨rest, hmem, hmin⟩
    obtain ⟨hstands, as, htext⟩ := runs_of_mem_matchIndices hmem
    exact ⟨as, rest, htext.symm, hstands, of_decide_eq_true hmin⟩
  · rintro ⟨as, rest, rfl, hrun⟩
    obtain ⟨found, hmem, hfound⟩ := exists_runs_of_runs ht hne hrun (Nat.zero_le as.length)
    exact ⟨found, hmem, decide_eq_true hfound.2⟩

/-- A body of ASCII characters takes as many bytes as it has characters. -/
theorem size_takeWhile {allowed : Char → Bool} (h : ∀ c, allowed c = true → c.utf8Size = 1) (cs : List Char) :
    size (cs.takeWhile allowed) = (cs.takeWhile allowed).length := by
  induction cs with
  | nil => rfl
  | cons c cs ih =>
    rw [List.takeWhile_cons]
    split_ifs with hc
    · rw [size_cons, h c hc, ih, List.length_cons, Nat.add_comm]
    · rfl

theorem Token.spans_ne_nil_iff {t : Token} (hbody : ∀ c, t.body c = true → c.utf8Size = 1)
    (hne : t.opening.toList ≠ []) (text : List Char) :
    t.spans text ≠ [] ↔ ∃ as rest, text = as ++ rest ∧ t.Runs rest := by
  have hlength (r : Rest) : (runEnd t.body (after t.opening.toList r)).1 - (after t.opening.toList r).1 =
      ((r.2.drop t.opening.toList.length).takeWhile t.body).length := by
    rw [runEnd, Nat.add_sub_cancel_left, size_takeWhile hbody]
    rfl
  constructor
  · intro hspans
    obtain ⟨span, hspan⟩ := List.exists_mem_of_ne_nil _ hspans
    obtain ⟨r, hr, hsome⟩ := List.mem_filterMap.mp hspan
    simp only [Option.ite_none_right_eq_some, hlength] at hsome
    obtain ⟨⟨as, htext, -⟩, -, hstands⟩ := leaves_of_mem_occurrences hr (leaves_all text)
    exact ⟨as, r.2, htext, hstands, hsome.1⟩
  · rintro ⟨as, rest, rfl, hstands, hmin⟩
    have hmem := @mem_occurrences t.opening.toList hne as rest 0 hstands
    have hspan : ⟨0 + size as, (runEnd t.body (after t.opening.toList (0 + size as, rest))).1⟩ ∈ t.spans (as ++ rest) := by
      refine List.mem_filterMap.mpr ⟨_, hmem, ?_⟩
      simp only [hlength]
      rw [if_pos hmin]
    exact List.ne_nil_of_mem hspan

/-! ### Agreement -/

theorem separate_of_mem_tokens : ∀ t ∈ tokens, t.separate = true ∧ t.opening.toList ≠ [] := by
  decide +kernel

theorem utf8Size_of_alnum {c : Char} (h : alnum c = true) : c.utf8Size = 1 := by
  have hz : ('z' : Char).val ≤ 127 := by decide
  have hZ : ('Z' : Char).val ≤ 127 := by decide
  have hnine : ('9' : Char).val ≤ 127 := by decide
  rw [Char.utf8Size_eq_one_iff]
  simp only [alnum, Char.isAlpha, Char.isUpper, Char.isLower, Char.isDigit, Bool.or_eq_true, Bool.and_eq_true,
    decide_eq_true_eq] at h
  rcases h with (⟨-, hle⟩ | ⟨-, hle⟩) | ⟨-, hle⟩
  · exact UInt32.le_trans hle hZ
  · exact UInt32.le_trans hle hz
  · exact UInt32.le_trans hle hnine

/-- Every token's body is ASCII. -/
theorem utf8Size_of_body {t : Token} (ht : t ∈ tokens) {c : Char} (h : t.body c = true) : c.utf8Size = 1 := by
  have hbody : t.body c = true → alnum c = true ∨ c = '-' ∨ c = '_' := by
    simp only [tokens, List.mem_cons, List.not_mem_nil, or_false] at ht
    rcases ht with rfl | rfl | rfl | rfl | rfl | rfl | rfl | rfl | rfl | rfl | rfl | rfl | rfl | rfl | rfl
    all_goals
      simp only [upperAlnum, alnumDash, word, alnum, Char.isAlpha, Bool.or_eq_true, decide_eq_true_eq]
      tauto
  rcases hbody h with h | rfl | rfl
  · exact utf8Size_of_alnum h
  · rfl
  · rfl

/-- A token has a span just when the old search finds a run of it. -/
theorem spans_isEmpty_eq {t : Token} (ht : t ∈ tokens) (text : List Char) :
    (!(t.spans text).isEmpty) = Before.tokenRun text t.opening t.min t.body := by
  obtain ⟨hseparate, hne⟩ := separate_of_mem_tokens t ht
  rw [Bool.eq_iff_iff, Bool.not_eq_true', List.isEmpty_eq_false_iff, tokenRun_iff hseparate hne]
  exact Token.spans_ne_nil_iff (fun _ => utf8Size_of_body ht) hne text

theorem secretSpans_isEmpty_eq {rule : Rule} (hrule : rule ≠ .privateKey) (text : List Char) :
    (!(secretSpans rule text).isEmpty) =
      (tokens.filter fun t => t.rule = rule).any fun t => Before.tokenRun text t.opening t.min t.body := by
  rw [secretSpans, if_neg hrule, Bool.eq_iff_iff, Bool.not_eq_true', List.isEmpty_eq_false_iff, List.any_eq_true]
  constructor
  · intro hspans
    obtain ⟨span, hspan⟩ := List.exists_mem_of_ne_nil _ hspans
    obtain ⟨t, ht, hspan⟩ := List.mem_flatMap.mp hspan
    have heq := spans_isEmpty_eq (List.mem_filter.mp ht).1 text
    rw [List.isEmpty_eq_false_iff.mpr (List.ne_nil_of_mem hspan)] at heq
    exact ⟨t, ht, heq.symm⟩
  · rintro ⟨t, ht, hrun⟩
    rw [← spans_isEmpty_eq (List.mem_filter.mp ht).1, Bool.not_eq_true', List.isEmpty_eq_false_iff] at hrun
    obtain ⟨span, hspan⟩ := List.exists_mem_of_ne_nil _ hrun
    exact List.ne_nil_of_mem (List.mem_flatMap.mpr ⟨t, ht, hspan⟩)

/-- There is a private key just when there are a header and the label. -/
theorem privateKeys_isEmpty_eq (text : List Char) :
    (!(privateKeys text).isEmpty) = (holds pemBegin text && holds privateKeyLabel text) := by
  have hblocks : (pemBlocks (text.length + 1) (0, text)).isEmpty = !holds pemBegin text := by
    rw [pemBlocks_succ, holds]
    cases findAt pemBegin 0 text <;> rfl
  rw [privateKeys]
  generalize pemBlocks (text.length + 1) (0, text) = blocks at hblocks ⊢
  cases holds privateKeyLabel text with
  | false => simp
  | true =>
    simp only [Bool.not_true, Bool.false_eq_true, if_false, Bool.and_true]
    rw [List.isEmpty_map, ← Bool.not_not (holds _ text), ← hblocks]
    split_ifs with hkeys
    · rfl
    · rw [Bool.not_eq_true] at hkeys
      obtain ⟨b, hb⟩ := List.exists_mem_of_ne_nil _ (List.isEmpty_eq_false_iff.mp hkeys)
      have hne := List.ne_nil_of_mem (List.mem_filter.mp hb).1
      rw [List.isEmpty_eq_false_iff.mpr hne, hkeys]

/-- The first credential shape is the one that was found before. -/
theorem secretPattern_eq_before (text : List Char) : secretPattern text = Before.secretRuleId text := by
  have hkey : (!(secretSpans .privateKey text).isEmpty) =
      (holds "-----BEGIN".toList text && holds "PRIVATE KEY".toList text) := privateKeys_isEmpty_eq text
  have haws : (!(secretSpans .awsAccessKey text).isEmpty) =
      (Before.tokenRun text "AKIA" 16 upperAlnum || Before.tokenRun text "ASIA" 16 upperAlnum) := by
    have hfilter : (tokens.filter fun t => t.rule = .awsAccessKey) =
        [⟨.awsAccessKey, "AKIA", 16, upperAlnum⟩, ⟨.awsAccessKey, "ASIA", 16, upperAlnum⟩] := rfl
    rw [secretSpans_isEmpty_eq (by decide), hfilter, List.any_cons, List.any_cons, List.any_nil, Bool.or_false]
  have hslack : (!(secretSpans .slackToken text).isEmpty) =
      ["xoxb-", "xoxp-", "xoxa-", "xoxo-", "xoxr-", "xoxs-"].any fun pfx => Before.tokenRun text pfx 10 alnumDash := by
    have hfilter : (tokens.filter fun t => t.rule = .slackToken) =
        ["xoxb-", "xoxp-", "xoxa-", "xoxo-", "xoxr-", "xoxs-"].map fun pfx => ⟨.slackToken, pfx, 10, alnumDash⟩ := rfl
    rw [secretSpans_isEmpty_eq (by decide), hfilter, List.any_map]
    rfl
  have hgithub : (!(secretSpans .githubToken text).isEmpty) =
      ((["ghp_", "gho_", "ghs_", "ghu_", "ghr_"].any fun pfx => Before.tokenRun text pfx 20 alnum) ||
        Before.tokenRun text "github_pat_" 20 word) := by
    have hfilter : (tokens.filter fun t => t.rule = .githubToken) =
        (["ghp_", "gho_", "ghs_", "ghu_", "ghr_"].map fun pfx => ⟨.githubToken, pfx, 20, alnum⟩) ++
          [⟨.githubToken, "github_pat_", 20, word⟩] := rfl
    have hlast (f : Token → Bool) (t : Token) : [t].any f = f t := Bool.or_false (f t)
    rw [secretSpans_isEmpty_eq (by decide), hfilter, List.any_append, List.any_map, hlast]
    rfl
  have hstripe : (!(secretSpans .stripeLiveKey text).isEmpty) = Before.tokenRun text "sk_live_" 16 alnum := by
    have hfilter : (tokens.filter fun t => t.rule = .stripeLiveKey) =
        [⟨.stripeLiveKey, "sk_live_", 16, alnum⟩] := rfl
    rw [secretSpans_isEmpty_eq (by decide), hfilter, List.any_cons, List.any_nil, Bool.or_false]
  have hword : (fun c => alnum c || c = '_') = word := rfl
  rw [secretPattern, Rule.builtInSecrets, Before.secretRuleId, hword]
  simp only [List.find?_cons, List.find?_nil, hkey, haws, hslack, hgithub, hstripe]
  generalize (holds "-----BEGIN".toList text && holds "PRIVATE KEY".toList text) = key
  generalize (Before.tokenRun text "AKIA" 16 upperAlnum || Before.tokenRun text "ASIA" 16 upperAlnum) = aws
  generalize (["xoxb-", "xoxp-", "xoxa-", "xoxo-", "xoxr-", "xoxs-"].any fun pfx =>
    Before.tokenRun text pfx 10 alnumDash) = slack
  generalize (["ghp_", "gho_", "ghs_", "ghu_", "ghr_"].any fun pfx => Before.tokenRun text pfx 20 alnum) = github
  generalize Before.tokenRun text "github_pat_" 20 word = pat
  generalize Before.tokenRun text "sk_live_" 16 alnum = stripe
  revert key aws slack github pat stripe
  decide

/-- Members that all have one text give it, where one of them is found. -/
theorem find?_append_map {α : Type} {l m : List α} {f : α → Bool} {g : α → String} {id : String}
    (hl : ∀ x ∈ l, g x = id) :
    ((l ++ m).find? f).map g = if l.any f then some id else (m.find? f).map g := by
  rw [List.find?_append]
  cases hfind : l.find? f with
  | none =>
    have hany : l.any f = false := by
      rw [List.find?_eq_none] at hfind
      rw [List.any_eq_false]
      exact hfind
    rw [hany, Option.none_or]
    rfl
  | some x =>
    have hany : l.any f = true := List.any_eq_true.mpr ⟨x, List.mem_of_find?_eq_some hfind, List.find?_some hfind⟩
    rw [hany, Option.some_or, Option.map_some, hl x (List.mem_of_find?_eq_some hfind)]
    rfl

theorem phraseSpans_isEmpty_eq {phrases : List String} (h : ∀ p ∈ phrases, p.toList ≠ []) (lower : List Char) :
    (!(phraseSpans lower phrases).isEmpty) = phrases.any fun p => holds p.toList lower := by
  induction phrases with
  | nil => rfl
  | cons p phrases ih =>
    rw [List.forall_mem_cons] at h
    have hphrase : (occurrences p.toList 0 lower).isEmpty = !holds p.toList lower := by
      rw [Bool.eq_iff_iff, List.isEmpty_iff, occurrences_eq_nil_iff h.1, holds, Bool.not_eq_true', Option.isSome_eq_false_iff,
        Option.isNone_iff_eq_none, findAt_eq_none_iff]
    have happend (as bs : List Span) : (as ++ bs).isEmpty = (as.isEmpty && bs.isEmpty) := by cases as <;> rfl
    have hrest := ih h.2
    rw [phraseSpans] at hrest ⊢
    rw [List.flatMap_cons, happend, List.isEmpty_map, hphrase, List.any_cons, ← hrest, Bool.not_and,
      Bool.not_not]

theorem Scanner.customSecret_isEmpty_eq {s : Scanner} (h : ∀ e ∈ s.extraSecrets, e.toList ≠ []) (text : List Char) :
    (!(s.spans .customSecret text).isEmpty) = s.extraSecrets.any fun e => holds e.toList text := by
  rw [Bool.eq_iff_iff, Bool.not_eq_true', List.isEmpty_eq_false_iff, List.any_eq_true]
  have hholds : ∀ e ∈ s.extraSecrets, holds e.toList text = true ↔ occurrences e.toList 0 text ≠ [] := by
    intro e he
    rw [Ne, occurrences_eq_nil_iff (h e he), holds, Option.isSome_iff_ne_none, Ne, findAt_eq_none_iff]
  constructor
  · intro hspans
    obtain ⟨span, hspan⟩ := List.exists_mem_of_ne_nil _ hspans
    obtain ⟨e, he, hspan⟩ := List.mem_flatMap.mp hspan
    obtain ⟨r, hr, -⟩ := List.mem_map.mp hspan
    exact ⟨e, he, (hholds e he).mpr (List.ne_nil_of_mem hr)⟩
  · rintro ⟨e, he, hstands⟩
    obtain ⟨r, hr⟩ := List.exists_mem_of_ne_nil _ ((hholds e he).mp hstands)
    exact List.ne_nil_of_mem (List.mem_flatMap.mpr ⟨e, he, List.mem_map.mpr ⟨r, hr, rfl⟩⟩)

/-- The phrases of a rule. -/
def phrasesOf (rule : Rule) : List String := (injectionPhrases.filter fun p => p.2 = rule).map Prod.fst

theorem ne_nil_of_mem_phrasesOf {rule : Rule} : ∀ p ∈ phrasesOf rule, p.toList ≠ [] := by
  have hall : ∀ p ∈ injectionPhrases, p.1.toList ≠ [] := by decide +kernel
  intro p hp
  obtain ⟨q, hq, rfl⟩ := List.mem_map.mp hp
  exact hall q (List.mem_filter.mp hq).1

/-- The phrases stand rule by rule, as they stood before. -/
theorem injectionPhrases_eq : Before.injectionPhrases =
    ((phrasesOf .ignorePreviousInstructions).map fun p => (p, "ignore-previous-instructions")) ++
      (((phrasesOf .disregardPreviousInstructions).map fun p => (p, "disregard-previous-instructions")) ++
        ((phrasesOf .concealFromUser).map fun p => (p, "conceal-from-user"))) := by
  decide +kernel

/-- The finding of the phrases, before. -/
theorem find?_injectionPhrases (lower : List Char) :
    (Before.injectionPhrases.find? fun p => holds p.1.toList lower).map Prod.snd =
      if (phrasesOf .ignorePreviousInstructions).any fun p => holds p.toList lower then
        some "ignore-previous-instructions"
      else if (phrasesOf .disregardPreviousInstructions).any fun p => holds p.toList lower then
        some "disregard-previous-instructions"
      else if (phrasesOf .concealFromUser).any fun p => holds p.toList lower then some "conceal-from-user"
      else none := by
  have hid (phrases : List String) (id : String) : ∀ x ∈ phrases.map fun p => (p, id), x.2 = id := by
    intro x hx
    obtain ⟨p, -, rfl⟩ := List.mem_map.mp hx
    rfl
  have hlast := @find?_append_map _ ((phrasesOf .concealFromUser).map fun p => (p, "conceal-from-user")) []
    (fun p => holds p.1.toList lower) Prod.snd _ (hid _ _)
  rw [List.append_nil] at hlast
  rw [injectionPhrases_eq, find?_append_map (hid _ _), find?_append_map (hid _ _), hlast]
  simp only [List.any_map, List.find?_nil, Option.map_none]
  rfl

theorem Scanner.phrases_isEmpty_eq (s : Scanner) {rule : Rule}
    (hrule : rule ∈ [Rule.ignorePreviousInstructions, .disregardPreviousInstructions, .concealFromUser])
    (text : List Char) :
    (!(s.spans rule text).isEmpty) = (phrasesOf rule).any fun p => holds p.toList (text.map Char.toLower) := by
  have hspans : s.spans rule text = phraseSpans (text.map Char.toLower) (phrasesOf rule) := by
    simp only [List.mem_cons, List.not_mem_nil, or_false] at hrule
    rcases hrule with rfl | rfl | rfl <;> rfl
  rw [hspans, phraseSpans_isEmpty_eq ne_nil_of_mem_phrasesOf]

/-- A scanner without empty phrases and substrings finds what was found before. -/
theorem Scanner.scan_eq_of_ne_nil {s : Scanner} (hphrases : ∀ p ∈ s.extraInjection, p.toList ≠ [])
    (hsecrets : ∀ e ∈ s.extraSecrets, e.toList ≠ []) (text : List Char) :
    s.scan text = Before.scan s.extraInjection s.extraSecrets text := by
  have hall : Rule.all = Rule.builtInSecrets ++ [.customSecret, .ignorePreviousInstructions,
      .disregardPreviousInstructions, .concealFromUser, .customInjection] := rfl
  have hbuiltIn : (Rule.builtInSecrets.find? fun rule => !(s.spans rule text).isEmpty) =
      Rule.builtInSecrets.find? fun rule => !(secretSpans rule text).isEmpty := by
    refine List.find?_congr fun rule hrule => ?_
    simp only [Rule.builtInSecrets, List.mem_cons, List.not_mem_nil, or_false] at hrule
    rcases hrule with rfl | rfl | rfl | rfl | rfl <;> rfl
  have hsecret := s.customSecret_isEmpty_eq hsecrets text
  have hignore := @Scanner.phrases_isEmpty_eq s .ignorePreviousInstructions (by decide) text
  have hdisregard := @Scanner.phrases_isEmpty_eq s .disregardPreviousInstructions (by decide) text
  have hconceal := @Scanner.phrases_isEmpty_eq s .concealFromUser (by decide) text
  have hcustom : (!(s.spans .customInjection text).isEmpty) =
      s.extraInjection.any fun p => holds p.toList (text.map Char.toLower) := phraseSpans_isEmpty_eq hphrases _
  have hfound (o : Option (String × String)) (rest : Option Finding) :
      (match o with | some p => some ⟨.injection, p.2⟩ | none => rest) =
        ((o.map Prod.snd).map fun id => (⟨.injection, id⟩ : Finding)).or rest := by
    cases o <;> rfl
  rw [scan, hall, List.find?_append, hbuiltIn, Before.scan, ← secretPattern_eq_before, secretPattern]
  cases hfirst : Rule.builtInSecrets.find? fun rule => !(secretSpans rule text).isEmpty with
  | some rule =>
    have hcategory : ∀ rule ∈ Rule.builtInSecrets, rule.category = .secret := by decide
    have hmem := hcategory rule (List.mem_of_find?_eq_some hfirst)
    rw [Option.some_or, Option.map_some, Option.map_some, Rule.finding, hmem]
  | none =>
    simp only [Option.none_or, Option.map_none]
    rw [hfound, find?_injectionPhrases]
    simp only [List.find?_cons, List.find?_nil, hsecret, hignore, hdisregard, hconceal, hcustom]
    generalize (s.extraSecrets.any fun e => holds e.toList text) = secret
    generalize ((phrasesOf .ignorePreviousInstructions).any fun p => holds p.toList (text.map Char.toLower)) = ignore
    generalize ((phrasesOf .disregardPreviousInstructions).any fun p => holds p.toList (text.map Char.toLower)) = disregard
    generalize ((phrasesOf .concealFromUser).any fun p => holds p.toList (text.map Char.toLower)) = conceal
    generalize (s.extraInjection.any fun p => holds p.toList (text.map Char.toLower)) = custom
    revert secret ignore disregard conceal custom
    decide

/-- Whatever phrases and substrings an operator adds, and whatever the text holds, the scan and the search for a credential
find what they found before. -/
theorem scan_eq_before (s : Scanner) (phrases substrings : List String) (text : List Char) :
    ((s.withExtraInjection phrases).withExtraSecrets substrings).scan text =
        Before.scan (s.withExtraInjection phrases).extraInjection (s.withExtraSecrets substrings).extraSecrets text ∧
      secretPattern text = Before.secretRuleId text := by
  refine ⟨Scanner.scan_eq_of_ne_nil (fun p hp => ?_) (fun e he => ?_) text, secretPattern_eq_before text⟩
  · obtain ⟨-, hp⟩ := List.mem_filter.mp hp
    rwa [Bool.not_eq_true', List.isEmpty_eq_false_iff] at hp
  · obtain ⟨-, he⟩ := List.mem_filter.mp he
    rw [Bool.not_eq_true', List.isEmpty_eq_false_iff] at he
    intro hnil
    rw [hnil] at he
    exact he rfl

end Mcpdef.Inspect
