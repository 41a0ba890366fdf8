import Mathlib

/-!
# The text of a URL

How the URL Standard takes the text of a URL with an authority apart: what it drops, where the scheme, the user info, the
host, the path, the query and the fragment start and end.  How a host and a path are read is left to `Readers`.
-/

namespace UrlText

abbrev Text := List Char

/-! ### Lists cut at a mark -/

section Cut

variable {α : Type} {p : α → Bool} {c : α}

theorem takeWhile_append_stop (hc : p c = false) (as bs : List α) :
    (as ++ c :: bs).takeWhile p = as.takeWhile p := by
  induction as with
  | nil => simp [hc]
  | cons a as ih =>
    rw [List.cons_append, List.takeWhile_cons, List.takeWhile_cons, ih]

theorem dropWhile_append_stop (hc : p c = false) (as bs : List α) :
    (as ++ c :: bs).dropWhile p = as.dropWhile p ++ c :: bs := by
  induction as with
  | nil => simp [hc]
  | cons a as ih =>
    rw [List.cons_append, List.dropWhile_cons, List.dropWhile_cons, ih]
    split_ifs <;> rfl

variable [DecidableEq α]

/-- A list split at the last place of an item. -/
def splitLast (c : α) : List α → Option (List α × List α)
  | [] => none
  | a :: as =>
    match splitLast c as with
    | some (before, after) => some (a :: before, after)
    | none => if a = c then some ([], as) else none

/-- A list split at the first place of another. -/
def splitFirst (sep : List α) : List α → Option (List α × List α)
  | [] => if sep = [] then some ([], []) else none
  | a :: as =>
    if sep <+: a :: as then some ([], (a :: as).drop sep.length)
    else (splitFirst sep as).map fun (before, after) => (a :: before, after)

theorem splitLast_eq_none {as : List α} : splitLast c as = none ↔ c ∉ as := by
  induction as with
  | nil => simp [splitLast]
  | cons a as ih =>
    rw [splitLast]
    split
    · next heq =>
      have hmem : c ∈ as := by
        by_contra hnot
        rw [ih.mpr hnot] at heq
        cases heq
      simp [hmem]
    · next heq =>
      have hnot := ih.mp heq
      split_ifs with h
      · simp [h]
      · simp [hnot, Ne.symm h]

theorem splitLast_append {bs : List α} (h : c ∉ bs) (as : List α) : splitLast c (as ++ c :: bs) = some (as, bs) := by
  induction as with
  | nil => rw [List.nil_append, splitLast, splitLast_eq_none.mpr h, if_pos rfl]
  | cons a as ih => rw [List.cons_append, splitLast, ih]

theorem eq_of_splitLast {as before after : List α} (h : splitLast c as = some (before, after)) :
    as = before ++ c :: after ∧ c ∉ after := by
  induction as generalizing before with
  | nil => cases h
  | cons a as ih =>
    rw [splitLast] at h
    split at h
    · next heq =>
      cases h
      obtain ⟨has, hnot⟩ := ih heq
      exact ⟨congrArg (a :: ·) has, hnot⟩
    · next heq =>
      split_ifs at h with ha
      cases h
      subst ha
      exact ⟨rfl, splitLast_eq_none.mp heq⟩

theorem eq_of_splitFirst {sep as before after : List α} (h : splitFirst sep as = some (before, after)) :
    as = before ++ (sep ++ after) := by
  induction as generalizing before with
  | nil =>
    rw [splitFirst] at h
    split_ifs at h with hsep
    cases h
    rw [hsep]
    rfl
  | cons a as ih =>
    rw [splitFirst] at h
    split_ifs at h with hsep
    · cases h
      obtain ⟨rest, hrest⟩ := hsep
      rw [← hrest, List.drop_left, List.nil_append]
    · obtain ⟨⟨before', after'⟩, hsplit, heq⟩ := Option.map_eq_some_iff.mp h
      cases heq
      exact congrArg (a :: ·) (ih hsplit)

/-- What has not the first item of a list before it is where the list is first. -/
theorem splitFirst_append {s : α} {sep as : List α} (h : s ∉ as) (bs : List α) :
    splitFirst (s :: sep) (as ++ (s :: sep ++ bs)) = some (as, bs) := by
  induction as with
  | nil => rw [List.nil_append, List.cons_append, splitFirst, if_pos (by simp), ← List.cons_append, List.drop_left]
  | cons a as ih =>
    rw [List.mem_cons, not_or] at h
    have hnot : ¬ (s :: sep <+: a :: (as ++ (s :: sep ++ bs))) := fun hopening => h.1 (List.cons_prefix_cons.mp hopening).1
    rw [List.cons_append, splitFirst, if_neg hnot, ih h.2]
    rfl

end Cut

/-! ### What is dropped -/

/-- A control character or a space, dropped at either end. -/
def stripped (c : Char) : Bool := c ≤ ' '

/-- A tab or the end of a line, dropped anywhere. -/
def dropped (c : Char) : Bool := c = '\t' || c = '\n' || c = '\r'

def trimStart (text : Text) : Text := text.dropWhile stripped

def trimEnd (text : Text) : Text := (text.reverse.dropWhile stripped).reverse

/-- What a text ends in that is dropped at its end. -/
def ending (text : Text) : Text := (text.reverse.takeWhile stripped).reverse

def trim (text : Text) : Text := trimEnd (trimStart text)

/-- A text without what is dropped anywhere. -/
def kept (text : Text) : Text := text.filter fun c => !dropped c

@[simp] theorem kept_append (as bs : Text) : kept (as ++ bs) = kept as ++ kept bs := List.filter_append ..

theorem kept_cons {c : Char} (h : dropped c = false) (as : Text) : kept (c :: as) = c :: kept as := by
  rw [kept, List.filter_cons, h]
  rfl

theorem mem_kept {c : Char} {as : Text} : c ∈ kept as ↔ c ∈ as ∧ dropped c = false := by
  rw [kept, List.mem_filter, Bool.not_eq_true']

theorem trimEnd_append_ending (text : Text) : trimEnd text ++ ending text = text := by
  rw [trimEnd, ending, ← List.reverse_append, List.takeWhile_append_dropWhile, List.reverse_reverse]

theorem stripped_of_mem_ending {text : Text} : ∀ c ∈ ending text, stripped c = true := by
  intro c hc
  exact List.mem_takeWhile_imp (List.mem_reverse.mp hc)

theorem trimStart_append {c : Char} (hc : stripped c = false) (as bs : Text) :
    trimStart (as ++ c :: bs) = trimStart as ++ c :: bs := dropWhile_append_stop hc as bs

theorem trimEnd_append {c : Char} (hc : stripped c = false) (as bs : Text) :
    trimEnd (as ++ c :: bs) = as ++ c :: trimEnd bs := by
  rw [trimEnd, List.reverse_append, List.reverse_cons, List.append_assoc, List.singleton_append,
    dropWhile_append_stop hc, List.reverse_append, List.reverse_cons, List.reverse_reverse, List.append_assoc,
    List.singleton_append, trimEnd]

theorem ending_append {c : Char} (hc : stripped c = false) (as bs : Text) : ending (as ++ c :: bs) = ending bs := by
  rw [ending, List.reverse_append, List.reverse_cons, List.append_assoc, List.singleton_append,
    takeWhile_append_stop hc, ending]

/-! ### The parts of a URL -/

def slash (c : Char) : Bool := c = '/' || c = '\\'

theorem slash_iff {c : Char} : slash c = true ↔ c = '/' ∨ c = '\\' := by
  rw [slash, Bool.or_eq_true, decide_eq_true_eq, decide_eq_true_eq]

def inAuthority (c : Char) : Bool := !slash c

/-- The start of a query or of a fragment. -/
def tailMark (c : Char) : Bool := c = '?' || c = '#'

theorem tailMark_iff {c : Char} : tailMark c = true ↔ c = '?' ∨ c = '#' := by
  rw [tailMark, Bool.or_eq_true, decide_eq_true_eq, decide_eq_true_eq]

def beforeTail (c : Char) : Bool := !tailMark c

def schemeChar (c : Char) : Bool := c.isAlphanum || c = '+' || c = '-' || c = '.'

/-- The scheme, in lower case, and what follows its colon. -/
def splitScheme (text : Text) : Option (Text × Text) :=
  match text.dropWhile schemeChar with
  | ':' :: rest =>
    if (text.head?.map Char.isAlpha).getD false then some ((text.takeWhile schemeChar).map Char.toLower, rest) else none
  | _ => none

/-- The texts of what stands before the query: any number of slashes follows the scheme, and the user info ends at the
last `@` before the next slash. -/
structure Pieces where
  scheme : Text
  userInfo : Text
  server : Text
  path : Text
deriving DecidableEq

/-- The pieces of what follows a scheme. -/
def authorityPieces (scheme rest : Text) : Pieces :=
  let rest := rest.dropWhile slash
  let authority := rest.takeWhile inAuthority
  let path := rest.dropWhile inAuthority
  match splitLast '@' authority with
  | some (userInfo, server) => ⟨scheme, userInfo, server, path⟩
  | none => ⟨scheme, [], authority, path⟩

def pieces (text : Text) : Option Pieces := (splitScheme text).map fun (scheme, rest) => authorityPieces scheme rest

def Pieces.username (p : Pieces) : Text := p.userInfo.takeWhile (· ≠ ':')

/-- The text after the first colon of the user info, if there is any. -/
def Pieces.password (p : Pieces) : Option Text :=
  match (p.userInfo.dropWhile (· ≠ ':')).drop 1 with
  | [] => none
  | password => some password

/-- How a host with its port is read, by the scheme, and how a path is. -/
structure Readers (H P : Type) where
  server : Text → Text → Option H
  path : Text → P

/-- A URL, its user name and its password as they are written. -/
structure Url (H P : Type) where
  scheme : Text
  username : Text
  password : Option Text
  server : H
  path : P
  query : Option Text
  fragment : Option Text

/-- A text without what is dropped: its part before a query or a fragment, and the rest. -/
def cleaned (text : Text) : Text × Text := (kept (trim text)).span beforeTail

/-- The query and the fragment. -/
def readTail : Text → Option Text × Option Text
  | '?' :: rest => (some (rest.takeWhile (· ≠ '#')), (rest.dropWhile (· ≠ '#')).tail?)
  | '#' :: rest => (none, some rest)
  | _ => (none, none)

def isHttp (scheme : Text) : Bool := scheme = "http".toList || scheme = "https".toList

variable {H P : Type}

/-- The URL that a text is, if its scheme is `http` or `https`. -/
def parse (R : Readers H P) (text : Text) : Option (Url H P) :=
  let (body, tail) := cleaned text
  (pieces body).bind fun p =>
    if isHttp p.scheme then
      (R.server p.scheme p.server).map fun server =>
        { scheme := p.scheme
          username := p.username
          password := p.password
          server
          path := R.path p.path
          query := (readTail tail).1
          fragment := (readTail tail).2 }
    else none

/-- What the standard says of a host and of a path: a host is never empty, neither it nor a port ends in a control or a
space, and a path keeps those it ends in. -/
structure Readers.Standard (R : Readers H P) : Prop where
  server_nil : ∀ scheme, R.server scheme [] = none
  server_append : ∀ scheme host more, more ≠ [] → (∀ c ∈ more, stripped c = true) →
    R.server scheme (host ++ more) = none
  path_append : ∀ path more, path ≠ [] → more ≠ [] → (∀ c ∈ more, stripped c = true ∧ dropped c = false) →
    R.path (path ++ more) ≠ R.path path

/-! ### Pieces of longer texts -/

theorem splitScheme_append {text : Text} (h : ':' ∈ text) (more : Text) :
    splitScheme (text ++ more) = (splitScheme text).map fun (scheme, rest) => (scheme, rest ++ more) := by
  obtain ⟨as, bs, rfl, hnot⟩ := List.eq_append_cons_of_mem h
  have hcolon : schemeChar ':' = false := by decide
  have hhead : ∀ rest : Text, (as ++ ':' :: rest).head? = (as ++ [':']).head? := by
    intro rest
    cases as <;> rfl
  rw [List.append_assoc, List.cons_append, splitScheme, splitScheme, dropWhile_append_stop hcolon,
    dropWhile_append_stop hcolon, takeWhile_append_stop hcolon, takeWhile_append_stop hcolon, hhead, hhead bs]
  cases hdrop : as.dropWhile schemeChar with
  | nil =>
    simp only [List.nil_append]
    split_ifs <;> rfl
  | cons d ds =>
    have hd : d ≠ ':' := by
      rintro rfl
      exact hnot (List.dropWhile_subset _ (hdrop ▸ List.mem_cons_self))
    simp [hd]

theorem authorityPieces_slashes (scheme rest : Text) :
    authorityPieces scheme ('/' :: '/' :: rest) = authorityPieces scheme rest := by
  have hdrop : ('/' :: '/' :: rest).dropWhile slash = rest.dropWhile slash := rfl
  rw [authorityPieces, authorityPieces, hdrop]

/-- A text that does not start with a slash starts with its authority. -/
theorem authorityPieces_of_head {rest : Text} (h : ∀ c ∈ rest.head?, slash c = false) (scheme : Text) :
    authorityPieces scheme rest =
      match splitLast '@' (rest.takeWhile inAuthority) with
      | some (userInfo, server) => ⟨scheme, userInfo, server, rest.dropWhile inAuthority⟩
      | none => ⟨scheme, [], rest.takeWhile inAuthority, rest.dropWhile inAuthority⟩ := by
  have hdrop : rest.dropWhile slash = rest := by
    cases rest with
    | nil => rfl
    | cons c rest => exact List.dropWhile_cons_of_neg (by rw [h c rfl]; decide)
  rw [authorityPieces, hdrop]

theorem head_of_takeWhile {rest : Text} (h : rest.takeWhile inAuthority ≠ []) : ∀ c ∈ rest.head?, slash c = false := by
  cases rest with
  | nil => exact absurd rfl h
  | cons c rest =>
    intro d hd
    cases hd
    by_contra hslash
    rw [Bool.not_eq_false] at hslash
    exact h (List.takeWhile_cons_of_neg (by rw [inAuthority, hslash]; decide))

/-- User info in front is taken off. -/
theorem authorityPieces_userInfo {userInfo rest : Text} (huser : ∀ c ∈ userInfo, slash c = false)
    (hrest : '@' ∉ rest.takeWhile inAuthority) (scheme : Text) :
    authorityPieces scheme (userInfo ++ '@' :: rest) =
      ⟨scheme, userInfo, rest.takeWhile inAuthority, rest.dropWhile inAuthority⟩ := by
  have hat : inAuthority '@' = true := by decide
  have huser' : ∀ c ∈ userInfo, inAuthority c = true := fun c hc => by rw [inAuthority, huser c hc]; rfl
  have htake : ((userInfo ++ '@' :: rest).takeWhile inAuthority) =
      userInfo ++ '@' :: rest.takeWhile inAuthority := by
    rw [List.takeWhile_append_of_pos huser', List.takeWhile_cons_of_pos hat]
  have hdrop : ((userInfo ++ '@' :: rest).dropWhile inAuthority) = rest.dropWhile inAuthority := by
    rw [List.dropWhile_append_of_pos huser', List.dropWhile_cons_of_pos hat]
  have hne : ((userInfo ++ '@' :: rest).takeWhile inAuthority) ≠ [] := by
    rw [htake]
    exact List.append_ne_nil_of_right_ne_nil _ (List.cons_ne_nil _ _)
  rw [authorityPieces_of_head (head_of_takeWhile hne), htake, splitLast_append hrest, hdrop]

/-- What ends neither the user info nor the authority goes on with the path, or with the host where there is no path. -/
theorem authorityPieces_append {more : Text} (hmore : ∀ c ∈ more, slash c = false ∧ c ≠ '@') (scheme rest : Text) :
    authorityPieces scheme (rest ++ more) =
      let p := authorityPieces scheme rest
      if p.path = [] then { p with server := p.server ++ more } else { p with path := p.path ++ more } := by
  have hat : '@' ∉ more := fun h => (hmore _ h).2 rfl
  have hkeep : ∀ c ∈ more, inAuthority c = true := fun c hc => by rw [inAuthority, (hmore c hc).1]; rfl
  cases hrest : rest.dropWhile slash with
  | nil =>
    have hall : ∀ c ∈ rest, slash c = true := List.dropWhile_eq_nil_iff.mp hrest
    have hdrop : (rest ++ more).dropWhile slash = more := by
      rw [List.dropWhile_append_of_pos hall]
      cases more with
      | nil => rfl
      | cons c more => exact List.dropWhile_cons_of_neg (by rw [(hmore c List.mem_cons_self).1]; decide)
    have htake : (more.takeWhile inAuthority) = more := List.takeWhile_eq_self_iff.mpr hkeep
    have hpath : (more.dropWhile inAuthority) = [] := List.dropWhile_eq_nil_iff.mpr hkeep
    rw [authorityPieces, authorityPieces, hdrop, hrest, htake, hpath, splitLast_eq_none.mpr hat]
    rfl
  | cons d ds =>
    have hdrop : (rest ++ more).dropWhile slash = d :: ds ++ more := by
      rw [List.dropWhile_append, hrest]
      rfl
    rw [authorityPieces, authorityPieces, hdrop, hrest]
    by_cases hslash : ∃ c ∈ d :: ds, slash c = true
    · obtain ⟨c, hc, hcslash⟩ := hslash
      obtain ⟨as, bs, hds⟩ := List.append_of_mem hc
      have hstop : inAuthority c = false := by rw [inAuthority, hcslash]; rfl
      have hne : (as.dropWhile inAuthority) ++ c :: bs ≠ [] :=
        List.append_ne_nil_of_right_ne_nil _ (List.cons_ne_nil _ _)
      rw [hds, List.append_assoc, List.cons_append, takeWhile_append_stop hstop, takeWhile_append_stop hstop,
        dropWhile_append_stop hstop, dropWhile_append_stop hstop]
      cases splitLast '@' (as.takeWhile inAuthority) with
      | none => simp
      | some split => simp
    · push Not at hslash
      have hall : ∀ c ∈ d :: ds, inAuthority c = true := fun c hc => by simpa [inAuthority] using hslash c hc
      have hall' : ∀ c ∈ d :: ds ++ more, inAuthority c = true := fun c hc =>
        (List.mem_append.mp hc).elim (hall c) (hkeep c)
      rw [List.takeWhile_eq_self_iff.mpr hall, List.takeWhile_eq_self_iff.mpr hall', List.dropWhile_eq_nil_iff.mpr hall,
        List.dropWhile_eq_nil_iff.mpr hall']
      cases hsplit : splitLast '@' (d :: ds) with
      | none =>
        have hnone : splitLast '@' (d :: ds ++ more) = none :=
          splitLast_eq_none.mpr fun h => (List.mem_append.mp h).elim (splitLast_eq_none.mp hsplit) hat
        rw [hnone]
        rfl
      | some split =>
        obtain ⟨before, after⟩ := split
        obtain ⟨heq, hnot⟩ := eq_of_splitLast hsplit
        have hsome : splitLast '@' (d :: ds ++ more) = some (before, after ++ more) := by
          rw [heq, List.append_assoc, List.cons_append]
          exact splitLast_append (fun h => (List.mem_append.mp h).elim hnot hat) before
        rw [hsome]
        rfl

/-- Where the scheme's colon comes before another `://`, what follows that is of the path. -/
theorem pieces_later {text : Text} (h : ':' ∈ text) :
    (∀ rest, pieces (text ++ ':' :: '/' :: '/' :: rest) = none) ∨
      ∃ p : Pieces, ∀ rest, pieces (text ++ ':' :: '/' :: '/' :: rest) = some { p with path := p.path ++ '/' :: '/' :: rest } := by
  cases hscheme : splitScheme text with
  | none =>
    refine .inl fun rest => ?_
    rw [pieces, splitScheme_append h, hscheme]
    rfl
  | some split =>
    obtain ⟨scheme, after⟩ := split
    right
    -- The authority ends before the slash.
    let start := after.dropWhile slash ++ [':']
    have hstart : ∀ rest, (after ++ ':' :: '/' :: '/' :: rest).dropWhile slash = start ++ '/' :: '/' :: rest := by
      intro rest
      rw [dropWhile_append_stop (by decide), List.append_assoc]
      rfl
    have hpieces : ∀ rest, pieces (text ++ ':' :: '/' :: '/' :: rest) =
        some (authorityPieces scheme (after ++ ':' :: '/' :: '/' :: rest)) := by
      intro rest
      rw [pieces, splitScheme_append h, hscheme]
      rfl
    have htake : ∀ rest, ((start ++ '/' :: '/' :: rest).takeWhile inAuthority) = start.takeWhile inAuthority :=
      fun rest => takeWhile_append_stop (by decide) start _
    have hdrop : ∀ rest, ((start ++ '/' :: '/' :: rest).dropWhile inAuthority) =
        (start.dropWhile inAuthority) ++ '/' :: '/' :: rest :=
      fun rest => dropWhile_append_stop (by decide) start _
    cases hsplit : splitLast '@' (start.takeWhile inAuthority) with
    | none =>
      refine ⟨⟨scheme, [], start.takeWhile inAuthority, start.dropWhile inAuthority⟩, fun rest => ?_⟩
      rw [hpieces, authorityPieces, hstart, htake, hdrop, hsplit]
    | some split =>
      obtain ⟨userInfo, server⟩ := split
      refine ⟨⟨scheme, userInfo, server, start.dropWhile inAuthority⟩, fun rest => ?_⟩
      rw [hpieces, authorityPieces, hstart, htake, hdrop, hsplit]

/-! ### What is dropped before a query -/

/-- The part of a text before a query or a fragment. -/
def beforeQuery (text : Text) : Text := text.takeWhile beforeTail

/-- What the part before a query or a fragment ends in stays in the text if there is one. -/
def trailing (text : Text) : Text := if beforeQuery text = text then [] else kept (ending (beforeQuery text))

theorem mem_of_mem_dropWhile {α : Type} {p : α → Bool} {a : α} {as : List α} (h : a ∈ as.dropWhile p) : a ∈ as :=
  List.dropWhile_subset p h

theorem mem_trim {c : Char} {text : Text} (h : c ∈ trim text) : c ∈ text := by
  rw [trim, trimEnd, List.mem_reverse] at h
  exact mem_of_mem_dropWhile (List.mem_reverse.mp (mem_of_mem_dropWhile h))

/-- The part of what is kept of a text that stands before its query. -/
theorem cleaned_fst {text : Text} (h : ':' ∈ beforeQuery text) :
    (cleaned text).1 = kept (trim (beforeQuery text)) ++ trailing text := by
  obtain ⟨as, bs, hsplit, -⟩ := List.eq_append_cons_of_mem h
  have hcolon : stripped ':' = false := by decide
  have hbefore : ∀ c ∈ beforeQuery text, beforeTail c = true := fun c hc => List.mem_takeWhile_imp hc
  have htext : text = beforeQuery text ++ text.dropWhile beforeTail := List.takeWhile_append_dropWhile.symm
  rw [cleaned, List.span_eq_takeWhile_dropWhile]
  cases htail : text.dropWhile beforeTail with
  | nil =>
    rw [htail, List.append_nil] at htext
    rw [trailing, if_pos htext.symm, List.append_nil, ← htext]
    refine List.takeWhile_eq_self_iff.mpr fun c hc => ?_
    rw [htext] at hc
    exact hbefore c (mem_trim (mem_kept.mp hc).1)
  | cons c rest =>
    have hc : beforeTail c = false := by
      have := List.head?_dropWhile_not beforeTail text
      rw [htail] at this
      simpa using this
    have hstrip : stripped c = false ∧ dropped c = false := by
      rw [beforeTail, Bool.not_eq_false', tailMark_iff] at hc
      rcases hc with rfl | rfl <;> decide
    have hne : beforeQuery text ≠ text := by
      intro heq
      rw [heq] at htext
      rw [htail] at htext
      exact absurd htext (by simp)
    have htrim : trim text = trimStart (beforeQuery text) ++ c :: trimEnd rest := by
      have htext' : text = as ++ ':' :: (bs ++ c :: rest) := by
        rw [htail, hsplit, List.append_assoc, List.cons_append] at htext
        exact htext
      rw [hsplit, trim, htext', trimStart_append hcolon, trimStart_append hcolon, ← List.cons_append, ← List.append_assoc,
        trimEnd_append hstrip.1]
    have hstart : trimStart (beforeQuery text) = trim (beforeQuery text) ++ ending (beforeQuery text) := by
      have := trimEnd_append_ending (trimStart (beforeQuery text))
      rw [← trim] at this
      have hending : ending (trimStart (beforeQuery text)) = ending (beforeQuery text) := by
        rw [hsplit, trimStart_append hcolon, ending_append hcolon, ending_append hcolon]
      rw [← hending, this]
    have hkept : ∀ d ∈ kept (trimStart (beforeQuery text)), beforeTail d = true := fun d hd =>
      hbefore d (mem_of_mem_dropWhile (mem_kept.mp hd).1)
    rw [htrim, kept_append, kept_cons hstrip.2, List.takeWhile_append_of_pos hkept, List.takeWhile_cons_of_neg (by simp [hc]),
      List.append_nil, hstart, kept_append, trailing, if_neg hne]

theorem beforeTail_of_stripped {c : Char} (h : stripped c = true) : beforeTail c = true := by
  by_contra hnot
  rw [Bool.not_eq_true, beforeTail, Bool.not_eq_false', tailMark_iff] at hnot
  rcases hnot with rfl | rfl <;> exact absurd h (by decide)

/-- What is dropped anywhere is dropped before a text is cut as well as after. -/
theorem kept_takeWhile {p : Char → Bool} (h : ∀ c, dropped c = true → p c = true) (text : Text) :
    (kept text).takeWhile p = kept (text.takeWhile p) := by
  induction text with
  | nil => rfl
  | cons c text ih =>
    cases hc : dropped c with
    | true =>
      have hdrop : ∀ as : Text, kept (c :: as) = kept as := fun as => by rw [kept, List.filter_cons, hc]; rfl
      rw [hdrop, List.takeWhile_cons_of_pos (h c hc), hdrop, ih]
    | false =>
      rw [kept_cons hc, List.takeWhile_cons, List.takeWhile_cons]
      split_ifs with hp
      · rw [kept_cons hc, ih]
      · rfl

theorem takeWhile_isPrefix {p : Char → Bool} {as bs : Text} (h : as <+: bs) : as.takeWhile p <+: bs.takeWhile p := by
  obtain ⟨more, rfl⟩ := h
  rw [List.takeWhile_append]
  split_ifs
  · exact (List.takeWhile_prefix p).trans (List.prefix_append _ _)
  · exact List.prefix_rfl

theorem mem_beforeQuery {c : Char} {text : Text} (h : c ∈ (cleaned text).1) : c ∈ beforeQuery text := by
  have hdropped : ∀ c, dropped c = true → beforeTail c = true := by
    intro c hc
    simp only [dropped, Bool.or_eq_true, decide_eq_true_eq] at hc
    rcases hc with (rfl | rfl) | rfl <;> rfl
  rw [cleaned, List.span_eq_takeWhile_dropWhile, kept_takeWhile hdropped] at h
  have htrim : trim text <+: trimStart text := ⟨ending (trimStart text), trimEnd_append_ending _⟩
  have hstart : c ∈ (trimStart text).takeWhile beforeTail := (takeWhile_isPrefix htrim).subset (mem_kept.mp h).1
  have hstripped : ∀ d ∈ text.takeWhile stripped, beforeTail d = true := fun d hd =>
    beforeTail_of_stripped (List.mem_takeWhile_imp hd)
  rw [beforeQuery, ← List.takeWhile_append_dropWhile (p := stripped) (l := text), List.takeWhile_append_of_pos hstripped]
  exact List.mem_append_right _ hstart

theorem colon_mem_of_pieces {text : Text} {p : Pieces} (h : pieces text = some p) : ':' ∈ text := by
  obtain ⟨split, hsplit, -⟩ := Option.map_eq_some_iff.mp h
  rw [splitScheme] at hsplit
  split at hsplit
  · next rest hdrop => exact mem_of_mem_dropWhile (hdrop ▸ List.mem_cons_self)
  · cases hsplit

/-- The scheme ends at the first colon. -/
theorem splitScheme_colon {text rest rest' : Text} {scheme : Text} (h : ':' ∉ text)
    (hsplit : splitScheme (text ++ ':' :: rest) = some (scheme, rest')) :
    rest' = rest ∧ ∀ other, splitScheme (text ++ ':' :: other) = some (scheme, other) := by
  have hcolon : schemeChar ':' = false := by decide
  have hhead : ∀ other : Text, (text ++ ':' :: other).head? = (text ++ [':']).head? := by
    intro other
    cases text <;> rfl
  have hdrop : text.dropWhile schemeChar = [] := by
    cases hdrop : text.dropWhile schemeChar with
    | nil => rfl
    | cons d ds =>
      rw [splitScheme, dropWhile_append_stop hcolon, hdrop] at hsplit
      split at hsplit
      · next heq =>
        cases heq
        exact absurd (mem_of_mem_dropWhile (hdrop ▸ List.mem_cons_self)) h
      · cases hsplit
  have hall : ∀ other, splitScheme (text ++ ':' :: other) =
      if ((text ++ [':']).head?.map Char.isAlpha).getD false then some ((text.takeWhile schemeChar).map Char.toLower, other)
      else none := by
    intro other
    rw [splitScheme, dropWhile_append_stop hcolon, takeWhile_append_stop hcolon, hdrop, hhead]
    rfl
  rw [hall] at hsplit
  split_ifs at hsplit with halpha
  cases hsplit
  exact ⟨rfl, fun other => by rw [hall, if_pos halpha]⟩

section Parse

variable {R : Readers H P} {text : Text}

/-- What a text without a query or a fragment parses as. -/
def Pieces.url (R : Readers H P) (p : Pieces) (server : H) : Url H P where
  scheme := p.scheme
  username := p.username
  password := p.password
  server := server
  path := R.path p.path
  query := none
  fragment := none

theorem parse_eq_some {u : Url H P} (h : parse R text = some u) :
    ∃ p server, pieces (cleaned text).1 = some p ∧ isHttp p.scheme = true ∧ R.server p.scheme p.server = some server ∧
      u.scheme = p.scheme ∧ u.username = p.username ∧ u.password = p.password ∧ u.server = server ∧
        u.path = R.path p.path := by
  obtain ⟨p, hp, h⟩ := Option.bind_eq_some_iff.mp h
  split_ifs at h with hscheme
  obtain ⟨server, hserver, rfl⟩ := Option.map_eq_some_iff.mp h
  exact ⟨p, server, hp, hscheme, hserver, rfl, rfl, rfl, rfl, rfl⟩

theorem parse_of_pieces {p : Pieces} {server : H} (htext : ∀ c ∈ text, beforeTail c = true)
    (hp : pieces (kept (trim text)) = some p) (hscheme : isHttp p.scheme = true) (hserver : R.server p.scheme p.server = some server) :
    parse R text = some (p.url R server) := by
  have hall : ∀ c ∈ kept (trim text), beforeTail c = true := fun c hc => htext c (mem_trim (mem_kept.mp hc).1)
  have hcleaned : cleaned text = (kept (trim text), []) := by
    rw [cleaned, List.span_eq_takeWhile_dropWhile, List.takeWhile_eq_self_iff.mpr hall, List.dropWhile_eq_nil_iff.mpr hall]
  rw [parse, hcleaned]
  simp only [hp, Option.bind_some]
  rw [if_pos hscheme, hserver]
  rfl

theorem trailing_spec (text : Text) : ∀ c ∈ trailing text, stripped c = true ∧ dropped c = false := by
  intro c hc
  rw [trailing] at hc
  split_ifs at hc
  · cases hc
  · exact ⟨stripped_of_mem_ending c (mem_kept.mp hc).1, (mem_kept.mp hc).2⟩

/-- What stands before the query of a URL, and what it ends in: a path goes on with that, a host never does. -/
theorem parse_pieces (hR : R.Standard) {u : Url H P} (h : parse R text = some u) :
    ∃ p, pieces (kept (trim (beforeQuery text))) = some p ∧
      pieces (cleaned text).1 = some { p with path := p.path ++ trailing text } ∧
      (trailing text ≠ [] → p.path ≠ []) ∧ isHttp p.scheme = true ∧ R.server p.scheme p.server = some u.server ∧
        u.scheme = p.scheme ∧ u.path = R.path (p.path ++ trailing text) := by
  obtain ⟨p, server, hp, hscheme, hserver, hu, -, -, hu', hpath⟩ := parse_eq_some h
  have hmore := trailing_spec text
  have hcolon := mem_beforeQuery (colon_mem_of_pieces hp)
  have hbody := cleaned_fst hcolon
  have hnot : ':' ∉ trailing text := fun h => absurd (hmore _ h).1 (by decide)
  have hcolon' : ':' ∈ kept (trim (beforeQuery text)) := by
    have := colon_mem_of_pieces hp
    rw [hbody] at this
    exact (List.mem_append.mp this).resolve_right hnot
  have hmark : ∀ c ∈ trailing text, slash c = false ∧ c ≠ '@' := by
    intro c hc
    have hstripped := (hmore c hc).1
    refine ⟨?_, ?_⟩
    · by_contra hslash
      rw [Bool.not_eq_false, slash_iff] at hslash
      rcases hslash with rfl | rfl <;> exact absurd hstripped (by decide)
    · rintro rfl
      exact absurd hstripped (by decide)
  rw [hbody, pieces, splitScheme_append hcolon', Option.map_map] at hp
  obtain ⟨⟨scheme, rest⟩, hsplit, hp⟩ := Option.map_eq_some_iff.mp hp
  have hpieces : pieces (kept (trim (beforeQuery text))) = some (authorityPieces scheme rest) := by
    rw [pieces, hsplit]
    rfl
  have happend := authorityPieces_append hmark scheme rest
  have hp' : authorityPieces scheme (rest ++ trailing text) = p := hp
  have hshape : p = { authorityPieces scheme rest with path := (authorityPieces scheme rest).path ++ trailing text } ∧
      (trailing text ≠ [] → (authorityPieces scheme rest).path ≠ []) := by
    rw [hp'] at happend
    by_cases hpath' : (authorityPieces scheme rest).path = []
    · rw [if_pos hpath'] at happend
      by_cases hnil : trailing text = []
      · rw [hnil, List.append_nil] at happend
        rw [happend, hnil, List.append_nil]
        exact ⟨rfl, fun hne => absurd rfl hne⟩
      · rw [happend] at hserver
        rw [hR.server_append _ _ _ hnil fun c hc => (hmore c hc).1] at hserver
        cases hserver
    · rw [if_neg hpath'] at happend
      exact ⟨happend, fun _ => hpath'⟩
  obtain ⟨rfl, hne⟩ := hshape
  refine ⟨_, hpieces, ?_, hne, hscheme, hserver.trans (congrArg some hu'.symm), hu, hpath⟩
  rw [hbody, pieces, splitScheme_append hcolon', hsplit]
  exact congrArg some hp'

end Parse

end UrlText
