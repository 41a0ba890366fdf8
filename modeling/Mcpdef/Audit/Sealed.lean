import Mcpdef.Audit.Resume
import Mcpdef.Lib.JsonInjective
import Mcpdef.Lib.Pieces

/-!
# What a head and a count pin down

Two files that verify against one head and one count, neither with an ambiguous record, hold the same records
(`sameRecords_of_sealed`), as long as SHA-256 takes no two of the texts hashed for them to one digest.

The text hashed for a record (`Record.preimage`) is cut at U+001F.  Of all fields only the decision may hold one, and
where it stands the other pieces are counted off from both ends; the later members are recognised by the brace they
start with, which no hash does.
-/

namespace Mcpdef.Audit

open JsonText ByteText HashChain

variable {φ : Type} {codec : FloatCodec φ} {sha256 : Bytes → Bytes}

/-! ### The text that is hashed -/

/-- The members after the first version's that this version knows, absent ones included. -/
def Record.knownLater (r : Record φ) : List (String × Option (Value φ)) :=
  [("kind", r.kind.map .string), ("uri", r.uri.map .string), ("actor", r.actor.map .string),
    ("peer", r.peer.map .string), ("config_from", r.configFrom.map .string), ("config_to", r.configTo.map .string),
    ("transforms", r.transforms.map fun names => .array (names.map .string)),
    ("tool_changes", r.toolChanges.map ToolChanges.toValue)]

/-- The members after the first version's that the hash covers: those present, and of the unknown ones those that are
not `null`. -/
def Record.later (r : Record φ) : List (String × Value φ) :=
  present r.knownLater ++ r.extra.members.filter fun m => !m.2.isNull

/-- The fields the hash joins, in order, the later members last where there are any. -/
def Record.hashFields (codec : FloatCodec φ) (r : Record φ) : List (List Char) :=
  [Nat.toDigits 10 r.seq.toNat, Nat.toDigits 10 r.tsUnixMs.toNat, r.agent.toList, r.server.toList,
    (r.method.getD "").toList, (r.tool.getD "").toList, r.decision.toList, (r.rule.getD "").toList,
    Nat.toDigits 10 r.latencyMs.toNat, r.prevHash.toList] ++ (r.laterMembers codec).toList

/-- The bytes that are hashed. -/
def Record.preimage (codec : FloatCodec φ) (r : Record φ) : Bytes := encode ([us].intercalate (r.hashFields codec))

theorem computeHash_eq (r : Record φ) : r.computeHash codec sha256 = hexEncode (sha256 (r.preimage codec)) := by
  have hjoin : ∀ (ls : List (List Char)) (l : List Char), ls ≠ [] →
      [us].intercalate (ls ++ [l]) = [us].intercalate ls ++ us :: l := by
    intro ls l hne
    induction ls with
    | nil => exact absurd rfl hne
    | cons a ls ih =>
      cases ls with
      | nil => simp [List.intercalate]
      | cons b ls =>
        have hrest := ih (List.cons_ne_nil b ls)
        simpa [List.intercalate] using hrest
  unfold Record.computeHash Record.preimage Record.hashFields
  cases r.laterMembers codec with
  | none => simp
  | some later =>
    simp only [Option.toList_some]
    rw [hjoin _ _ (List.cons_ne_nil _ _)]

private theorem filterMap_nonNull {α : Type} {f : String × Value φ → Option α} {g : String × Value φ → α}
    (hf : ∀ m, f m = if m.2.isNull then none else some (g m)) (ms : List (String × Value φ)) :
    ms.filterMap f = (ms.filter fun m => !m.2.isNull).map g := by
  induction ms with
  | nil => rfl
  | cons m ms ih => by_cases hm : m.2.isNull = true <;> simp [hf m, hm, ih]

/-- The later members are hashed as one object, sorted. -/
theorem laterMembers_eq (r : Record φ) : r.laterMembers codec =
    if r.later = [] then none else some (print codec (sortMembers (.object r.later))) := by
  have hstrings : ∀ l : List (String × Option String),
      (l.filterMap fun m => m.2.map fun s => (m.1, printString s)) =
        (present (l.map fun m => (m.1, m.2.map (Value.string (φ := φ))))).map fun m => (m.1, canonicalJson codec m.2) := by
    intro l
    simp only [present, List.filterMap_map, List.map_filterMap, Function.comp_def, Option.map_map]
    rfl
  have hmembers : r.laterMembers codec =
      (let members := (r.later.map fun m => (m.1, canonicalJson codec m.2)).insertionSort fun a b => a.1 ≤ b.1
       if members.isEmpty then none
       else some ('{' :: [','].intercalate (members.map fun m => printString m.1 ++ ':' :: m.2) ++ ['}'])) := by
    unfold Record.laterMembers Record.later Record.knownLater
    have hpresent : ∀ (l : List (String × Option (Value φ))) (a b : Option (Value φ)),
        present (l ++ [("transforms", a), ("tool_changes", b)]) =
          present l ++ a.toList.map (fun v => ("transforms", v)) ++ b.toList.map fun v => ("tool_changes", v) := by
      intro l a b
      cases a <;> cases b <;> simp [present]
    have hknown := hpresent (List.map (fun m => (m.1, m.2.map (Value.string (φ := φ)))) [("kind", r.kind), ("uri", r.uri),
      ("actor", r.actor), ("peer", r.peer), ("config_from", r.configFrom), ("config_to", r.configTo)])
      (r.transforms.map fun names => .array (names.map .string)) (r.toolChanges.map ToolChanges.toValue)
    simp only [List.map_cons, List.map_nil, List.cons_append, List.nil_append] at hknown
    rw [hstrings, filterMap_nonNull (g := fun m => (m.1, canonicalJson codec m.2)), hknown]
    · cases r.transforms <;> cases r.toolChanges <;> simp
    · rintro ⟨n, v⟩
      cases v <;> rfl
  have hempty : ∀ l : List (String × List Char), l.insertionSort (fun a b => a.1 ≤ b.1) = [] ↔ l = [] := by
    intro l
    rw [← List.length_eq_zero_iff, List.length_insertionSort, List.length_eq_zero_iff]
  have hsort : ∀ (f : Value φ → Value φ) (g : Value φ → List Char), (∀ v, g v = print codec (f v)) →
      ((r.later.map fun m => (m.1, g m.2)).insertionSort fun a b => a.1 ≤ b.1) =
        ((r.later.map fun m => (m.1, f m.2)).insertionSort fun a b => a.1 ≤ b.1).map fun m => (m.1, print codec m.2) := by
    intro f g hfg
    rw [List.map_insertionSort (r := fun a b : String × Value φ => a.1 ≤ b.1)
      (s := fun a b : String × List Char => a.1 ≤ b.1)]
    · simp [hfg, Function.comp_def]
    · simp
  rw [hmembers]
  simp only [List.isEmpty_iff, hempty, List.map_eq_nil_iff]
  rw [hsort sortMembers (canonicalJson codec) fun _ => rfl, sortMembers, sortEach_eq_map, print,
    printMembers_eq_intercalate, List.map_map]
  rfl

/-! ### The pieces of the text -/

/-- No value's text holds the separator. -/
theorem us_notMem_print (hcodec : codec.Distinct) (v : Value φ) : us ∉ print codec v := by
  intro hm
  have := le_of_mem_print_of_distinct hcodec v us hm
  revert this
  decide

private theorem us_notMem_toDigits (n : Nat) : us ∉ Nat.toDigits 10 n := by
  intro hm
  have := le_of_mem_toDigits hm
  revert this
  decide

/-- A hexadecimal digit in lower case. -/
private def IsLowerHex (c : Char) : Prop := c.isDigit = true ∨ ('a' ≤ c ∧ c ≤ 'f')

private theorem isLowerHex_of_mem_hexEncode {bs : Bytes} : ∀ c ∈ (hexEncode bs).toList, IsLowerHex c := by
  have hdigit : ∀ n, n < 16 → IsLowerHex n.digitChar := by
    intro n hn
    unfold IsLowerHex
    interval_cases n <;> decide
  intro c hc
  simp only [hexEncode, String.toList_ofList, List.mem_flatMap, List.mem_cons, List.not_mem_nil, or_false] at hc
  obtain ⟨b, -, rfl | rfl⟩ := hc
  · exact hdigit _ (by have := b.toNat_lt; omega)
  · exact hdigit _ (by omega)

/-- The hash of the record before, as a chain has it: hexadecimal digits. -/
def Record.ChainedPrev (r : Record φ) : Prop := ∀ c ∈ r.prevHash.toList, IsLowerHex c

/-- Every record of a chain from the anchor has such a hash before it. -/
theorem chainedPrev_of_linked {rs : List (Record φ)} (hl : Linked (scheme codec sha256) genesis 0 rs) :
    ∀ r ∈ rs, r.ChainedPrev := by
  intro r hr
  unfold Record.ChainedPrev
  rcases hl.prev_eq hr with hp | ⟨s, hp⟩
  · have hgenesis : r.prevHash = genesis := hp
    rw [hgenesis]
    have hzeros : genesis.toList = List.replicate 64 '0' := rfl
    intro c hc
    rw [hzeros] at hc
    rw [List.eq_of_mem_replicate hc]
    exact .inl (by decide)
  · have hhash : r.prevHash = hexEncode (sha256 (s.preimage codec)) := by
      rw [← computeHash_eq]
      exact hp
    rw [hhash]
    exact isLowerHex_of_mem_hexEncode

/-- The pieces the separators cut the hashed text into. -/
private theorem splitOn_preimage (hcodec : codec.Distinct) {r : Record φ} (hsep : r.hasSeparator = false)
    (hprev : r.ChainedPrev) : ([us].intercalate (r.hashFields codec)).splitOn us =
      [Nat.toDigits 10 r.seq.toNat, Nat.toDigits 10 r.tsUnixMs.toNat, r.agent.toList, r.server.toList,
        (r.method.getD "").toList, (r.tool.getD "").toList] ++ (r.decision.toList.splitOn us ++
        ([(r.rule.getD "").toList, Nat.toDigits 10 r.latencyMs.toNat, r.prevHash.toList] ++
          (r.laterMembers codec).toList)) := by
  have hstring : ∀ s : String, s.toList.contains us = false → us ∉ s.toList := by
    intro s hs hm
    simp [hm] at hs
  have hoption : ∀ o : Option String, (o.any fun s => s.toList.contains us) = false → us ∉ (o.getD "").toList := by
    intro o ho
    cases o with
    | none => decide
    | some s => exact hstring s ho
  have hprevious : us ∉ r.prevHash.toList := by
    intro hm
    have := hprev us hm
    unfold IsLowerHex at this
    revert this
    decide
  have hlater : ∀ l ∈ (r.laterMembers codec).toList, us ∉ l := by
    intro l hl
    rw [laterMembers_eq] at hl
    split at hl
    · cases hl
    · obtain rfl : l = _ := by simpa using hl
      exact us_notMem_print hcodec _
  simp only [Record.hasSeparator, List.any_cons, List.any_nil, Bool.or_false, Bool.or_eq_false_iff] at hsep
  obtain ⟨⟨hagent, hserver⟩, hmethod, htool, hrule⟩ := hsep
  rw [Pieces.splitOn_intercalate_flatMap us (by simp [Record.hashFields]), Record.hashFields, List.flatMap_append]
  simp only [List.flatMap_cons, List.flatMap_nil, List.append_nil]
  rw [List.splitOn_eq_singleton (us_notMem_toDigits _), List.splitOn_eq_singleton (us_notMem_toDigits _),
    List.splitOn_eq_singleton (hstring _ hagent), List.splitOn_eq_singleton (hstring _ hserver),
    List.splitOn_eq_singleton (hoption _ hmethod), List.splitOn_eq_singleton (hoption _ htool),
    List.splitOn_eq_singleton (hoption _ hrule), List.splitOn_eq_singleton (us_notMem_toDigits _),
    List.splitOn_eq_singleton hprevious]
  have hlast : (r.laterMembers codec).toList.flatMap (fun l => l.splitOn us) = (r.laterMembers codec).toList := by
    cases hl : r.laterMembers codec with
    | none => rfl
    | some l =>
      have := hlater l (by simp [hl])
      simp [List.splitOn_eq_singleton this]
  rw [hlast]
  simp

/-! ### Records with one text -/

/-- What an unknown member holds, an absent one being as good as `null`. -/
def Extra.value (e : Extra φ) (name : String) : Value φ := (e.members.lookup name).getD .null

/-- The records hold the same, field by field: an absent method, tool or rule is an empty one, an absent unknown member
is a `null` one, and the members of an object have no order. -/
structure SameRecord (r s : Record φ) : Prop where
  seq : r.seq = s.seq
  tsUnixMs : r.tsUnixMs = s.tsUnixMs
  agent : r.agent = s.agent
  server : r.server = s.server
  method : r.method.getD "" = s.method.getD ""
  tool : r.tool.getD "" = s.tool.getD ""
  decision : r.decision = s.decision
  rule : r.rule.getD "" = s.rule.getD ""
  latencyMs : r.latencyMs = s.latencyMs
  kind : r.kind = s.kind
  uri : r.uri = s.uri
  transforms : r.transforms = s.transforms
  actor : r.actor = s.actor
  peer : r.peer = s.peer
  configFrom : r.configFrom = s.configFrom
  configTo : r.configTo = s.configTo
  toolChanges : r.toolChanges = s.toolChanges
  extra : ∀ name, sortMembers (r.extra.value name) = sortMembers (s.extra.value name)
  prevHash : r.prevHash = s.prevHash
  hash : r.hash = s.hash

/-- The text of the later members is no hash of a record before: a brace starts it. -/
private theorem laterMembers_ne_prevHash {r s : Record φ} {later : List Char} (h : r.laterMembers codec = some later)
    (hs : s.ChainedPrev) : later ≠ s.prevHash.toList := by
  intro heq
  rw [laterMembers_eq] at h
  split at h
  · cases h
  · have hmem : '{' ∈ later := by
      rw [← Option.some.inj h]
      exact List.mem_cons_self
    rw [heq] at hmem
    have hhex := hs _ hmem
    unfold IsLowerHex at hhex
    revert hhex
    decide

/-- What two records have before them is the same if their texts are, whatever separators their fields hold: the hash
before is the last piece of a text, or the last but the later members. -/
theorem prevHash_eq_of_preimage (hcodec : codec.Distinct) {r s : Record φ} (hr : r.ChainedPrev) (hs : s.ChainedPrev)
    (h : r.preimage codec = s.preimage codec) : r.prevHash = s.prevHash := by
  have hpieces : ∀ x : Record φ, x.ChainedPrev → ∃ ps, ([us].intercalate (x.hashFields codec)).splitOn us =
      ps ++ [x.prevHash.toList] ++ (x.laterMembers codec).toList := by
    intro x hx
    have hprevious : us ∉ x.prevHash.toList := by
      intro hm
      have := hx us hm
      unfold IsLowerHex at this
      revert this
      decide
    have hlast : (x.laterMembers codec).toList.flatMap (fun l => l.splitOn us) = (x.laterMembers codec).toList := by
      cases hl : x.laterMembers codec with
      | none => rfl
      | some l =>
        have hl' : us ∉ l := by
          rw [laterMembers_eq] at hl
          split at hl
          · cases hl
          · rw [← Option.some.inj hl]
            exact us_notMem_print hcodec _
        simp [List.splitOn_eq_singleton hl']
    rw [Pieces.splitOn_intercalate_flatMap us (by simp [Record.hashFields]), Record.hashFields, List.flatMap_append, hlast]
    have hfields : ∀ fs : List (List Char), (fs ++ [x.prevHash.toList]).flatMap (fun l => l.splitOn us) =
        fs.flatMap (fun l => l.splitOn us) ++ [x.prevHash.toList] := by
      intro fs
      rw [List.flatMap_append, List.flatMap_singleton, List.splitOn_eq_singleton hprevious]
    exact ⟨_, congrArg (· ++ (x.laterMembers codec).toList) (hfields [Nat.toDigits 10 x.seq.toNat,
      Nat.toDigits 10 x.tsUnixMs.toNat, x.agent.toList, x.server.toList, (x.method.getD "").toList,
      (x.tool.getD "").toList, x.decision.toList, (x.rule.getD "").toList, Nat.toDigits 10 x.latencyMs.toNat])⟩
  obtain ⟨ps, hps⟩ := hpieces r hr
  obtain ⟨qs, hqs⟩ := hpieces s hs
  have hsame := congrArg (List.splitOn us) (encode_injective h)
  rw [hps, hqs] at hsame
  cases hrl : r.laterMembers codec with
  | none =>
    cases hsl : s.laterMembers codec with
    | none =>
      rw [hrl, hsl, Option.toList_none, List.append_nil, List.append_nil] at hsame
      exact String.toList_inj.mp (List.append_singleton_inj.mp hsame).2
    | some later =>
      rw [hrl, hsl, Option.toList_none, List.append_nil, Option.toList_some] at hsame
      exact absurd (List.append_singleton_inj.mp hsame).2.symm (laterMembers_ne_prevHash hsl hr)
  | some later =>
    cases hsl : s.laterMembers codec with
    | none =>
      rw [hrl, hsl, Option.toList_none, List.append_nil, Option.toList_some] at hsame
      exact absurd (List.append_singleton_inj.mp hsame).2 (laterMembers_ne_prevHash hrl hs)
    | some later' =>
      rw [hrl, hsl, Option.toList_some, Option.toList_some] at hsame
      exact String.toList_inj.mp (List.append_singleton_inj.mp (List.append_singleton_inj.mp hsame).1).2

/-- The pieces of two texts that are one agree. -/
private theorem pieces_eq (hcodec : codec.Distinct) {r s : Record φ} (hr : r.hasSeparator = false)
    (hs : s.hasSeparator = false) (hrp : r.ChainedPrev) (hsp : s.ChainedPrev)
    (h : r.preimage codec = s.preimage codec) :
    [Nat.toDigits 10 r.seq.toNat, Nat.toDigits 10 r.tsUnixMs.toNat, r.agent.toList, r.server.toList,
        (r.method.getD "").toList, (r.tool.getD "").toList] =
      [Nat.toDigits 10 s.seq.toNat, Nat.toDigits 10 s.tsUnixMs.toNat, s.agent.toList, s.server.toList,
        (s.method.getD "").toList, (s.tool.getD "").toList] ∧
    r.decision = s.decision ∧
    [(r.rule.getD "").toList, Nat.toDigits 10 r.latencyMs.toNat, r.prevHash.toList] =
      [(s.rule.getD "").toList, Nat.toDigits 10 s.latencyMs.toNat, s.prevHash.toList] ∧
    r.laterMembers codec = s.laterMembers codec := by
  have hpieces := congrArg (List.splitOn us) (encode_injective h)
  rw [splitOn_preimage hcodec hr hrp, splitOn_preimage hcodec hs hsp] at hpieces
  obtain ⟨hfirst, hrest⟩ := List.append_inj hpieces rfl
  -- The hash before it ends a record without later members, and a brace starts the last piece of one with some.
  have hbrace : ∀ {a b : Record φ} {l : List Char}, a.laterMembers codec = some l → b.ChainedPrev →
      l ≠ b.prevHash.toList := fun hl hb => laterMembers_ne_prevHash hl hb
  have hend := congrArg List.getLast? hrest
  have htail : (r.laterMembers codec).toList.length = (s.laterMembers codec).toList.length := by
    cases hrl : r.laterMembers codec with
    | none =>
      cases hsl : s.laterMembers codec with
      | none => rfl
      | some l =>
        have hl : r.prevHash.toList = l := by simpa [hrl, hsl] using hend
        exact absurd hl.symm (hbrace hsl hrp)
    | some l =>
      cases hsl : s.laterMembers codec with
      | none =>
        have hl : l = s.prevHash.toList := by simpa [hrl, hsl] using hend
        exact absurd hl (hbrace hrl hsp)
      | some m => rfl
  have hlength : ([(r.rule.getD "").toList, Nat.toDigits 10 r.latencyMs.toNat, r.prevHash.toList] ++
      (r.laterMembers codec).toList).length = ([(s.rule.getD "").toList, Nat.toDigits 10 s.latencyMs.toNat,
      s.prevHash.toList] ++ (s.laterMembers codec).toList).length := by
    rw [List.length_append, List.length_append, htail]
    rfl
  obtain ⟨hdecision, hlast⟩ := List.append_inj' hrest hlength
  obtain ⟨hthree, hlater⟩ := List.append_inj hlast rfl
  refine ⟨hfirst, String.ext (Pieces.eq_of_splitOn us hdecision), hthree, ?_⟩
  cases hrl : r.laterMembers codec <;> cases hsl : s.laterMembers codec <;> simp_all

private theorem filter_sortEach (ms : List (String × Value φ)) (name : String) :
    (sortEach ms).filter (fun m => m.1 = name) =
      (ms.filter fun m => m.1 = name).map fun m => (m.1, sortMembers m.2) := by
  rw [sortEach_eq_map, List.filter_map]
  rfl

private theorem filter_members {ms : List (String × Value φ)} (h : (ms.map Prod.fst).Nodup) (name : String) :
    ms.filter (fun m => m.1 = name) = ((ms.lookup name).map fun v => (name, v)).toList := by
  have hpresent : present (ms.map fun m => (m.1, some m.2)) = ms := by
    simp [present, List.filterMap_map]
  have hnodup : ((ms.map fun m => (m.1, some m.2)).map Prod.fst).Nodup := by
    rw [List.map_map]
    exact h
  have hlookup : (ms.map fun m => (m.1, some m.2)).lookup name = (ms.lookup name).map some := by
    clear hpresent hnodup h
    induction ms with
    | nil => rfl
    | cons m ms ih =>
      rw [List.map_cons, List.lookup_cons, List.lookup_cons, ih]
      cases name == m.1 <;> rfl
  have := filter_present hnodup name
  rw [hpresent, hlookup] at this
  rw [this]
  cases ms.lookup name <;> rfl

private theorem toList_perm {α : Type} {o p : Option α} (h : o.toList.Perm p.toList) : o = p := by
  cases o <;> cases p <;> simp_all

private theorem map_fst_knownLater (r : Record φ) : r.knownLater.map Prod.fst =
    ["kind", "uri", "actor", "peer", "config_from", "config_to", "transforms", "tool_changes"] := rfl

/-- Records whose later members are the same up to order agree on each this version knows. -/
private theorem lookup_knownLater {r s : Record φ} (h : (sortEach r.later).Perm (sortEach s.later)) {name : String}
    (hname : name ∈ r.knownLater.map Prod.fst) :
    (r.knownLater.lookup name).join.map sortMembers = (s.knownLater.lookup name).join.map sortMembers := by
  have hfilter : ∀ a : Record φ, (sortEach a.later).filter (fun m => m.1 = name) =
      (((a.knownLater.lookup name).join.map sortMembers).map fun v => (name, v)).toList := by
    intro a
    have hmember : name ∈ memberNames := by
      rw [map_fst_knownLater] at hname
      revert name
      decide
    have hextra : (a.extra.members.filter fun m => !m.2.isNull).filter (fun m => m.1 = name) = [] := by
      rw [List.filter_comm, filter_extra a.extra hmember, List.filter_nil]
    rw [filter_sortEach, Record.later, List.filter_append, filter_present (by rw [map_fst_knownLater]; decide) name,
      hextra, List.append_nil]
    cases (a.knownLater.lookup name).join <;> rfl
  have hperm := h.filter fun m => m.1 = name
  rw [hfilter r, hfilter s] at hperm
  exact Option.map_injective (fun v w hvw => (Prod.mk.inj hvw).2) (toList_perm hperm)

private theorem isNull_sortMembers (v : Value φ) : (sortMembers v).isNull = v.isNull := by
  cases v <;> simp [sortMembers, Value.isNull]

private theorem eq_null_of_isNull {v : Value φ} (h : v.isNull = true) : v = .null := by
  cases v with
  | null => rfl
  | bool _ | number _ | string _ | array _ | object _ => cases h

/-- Records whose later members are the same up to order agree on each this version does not know. -/
private theorem value_extra {r s : Record φ} (h : (sortEach r.later).Perm (sortEach s.later)) (name : String) :
    sortMembers (r.extra.value name) = sortMembers (s.extra.value name) := by
  by_cases hname : name ∈ memberNames
  · have hnull : ∀ a : Record φ, a.extra.value name = .null := by
      intro a
      have hnone : a.extra.members.lookup name = none := by
        rw [List.lookup_eq_none_iff]
        intro m hm
        simp only [bne_iff_ne, ne_eq]
        rintro rfl
        exact a.extra.foreign m hm hname
      rw [Extra.value, hnone]
      rfl
    rw [hnull r, hnull s]
  · have hfilter : ∀ a : Record φ, (sortEach a.later).filter (fun m => m.1 = name) =
        (((a.extra.members.lookup name).filter fun v => !v.isNull).map fun v => (name, sortMembers v)).toList := by
      intro a
      have hknown : (present a.knownLater).filter (fun m => m.1 = name) = [] := by
        have hlater : ∀ n ∈ a.knownLater.map Prod.fst, n ∈ memberNames := by
          rw [map_fst_knownLater]
          decide
        rw [List.filter_eq_nil_iff]
        intro m hm
        obtain ⟨m', hm', hmap⟩ := List.mem_filterMap.mp hm
        obtain ⟨v, -, rfl⟩ := Option.map_eq_some_iff.mp hmap
        simp only [decide_eq_true_eq]
        rintro rfl
        exact hname (hlater _ (List.mem_map_of_mem hm'))
      have hnodup : (a.extra.members.map Prod.fst).Nodup := by
        have := a.extra.strict
        rw [JsonText.strict, Bool.and_eq_true, decide_eq_true_eq] at this
        exact this.1
      rw [filter_sortEach, Record.later, List.filter_append, hknown, List.nil_append, List.filter_comm,
        filter_members hnodup]
      cases a.extra.members.lookup name with
      | none => rfl
      | some v => by_cases hv : v.isNull = true <;> simp [Option.filter, hv]
    have hperm := h.filter fun m => m.1 = name
    rw [hfilter r, hfilter s] at hperm
    have hsorted : ∀ a : Record φ, sortMembers (a.extra.value name) =
        (((a.extra.members.lookup name).filter fun v => !v.isNull).map sortMembers).getD .null := by
      intro a
      unfold Extra.value
      cases a.extra.members.lookup name with
      | none => simp [sortMembers]
      | some v =>
        by_cases hv : v.isNull = true
        · rw [eq_null_of_isNull hv]
          simp [Option.filter, Value.isNull, sortMembers]
        · simp [Option.filter, hv]
    have hvalues := congrArg (Option.map Prod.snd) (toList_perm hperm)
    simp only [Option.map_map, Function.comp_def] at hvalues
    rw [hsorted r, hsorted s]
    exact congrArg (Option.getD · .null) hvalues

private theorem sortMembers_strings (names : List String) :
    sortMembers (φ := φ) (.array (names.map .string)) = .array (names.map .string) := by
  rw [sortMembers, sortItems_eq_map, List.map_map]
  simp [Function.comp_def, sortMembers]

private theorem sortMembers_toValue_injective {c d : ToolChanges}
    (h : sortMembers (φ := φ) c.toValue = sortMembers d.toValue) : c = d := by
  obtain ⟨a1, r1, c1, d1⟩ := c
  obtain ⟨a2, r2, c2, d2⟩ := d
  simp only [ToolChanges.toValue, sortMembers, sortEach, u64Value] at h
  have horder : ∀ a b c d : Value φ, [("added", a), ("removed", b), ("changed", c), ("drifted", d)].insertionSort
      (fun a b => a.1 ≤ b.1) = [("added", a), ("changed", c), ("drifted", d), ("removed", b)] := by
    intro a b c d
    simp [List.insertionSort, List.orderedInsert]
  rw [horder, horder] at h
  simp only [Value.object.injEq, List.cons.injEq, Prod.mk.injEq, true_and, Value.number.injEq, Number.pos.injEq,
    and_true] at h
  obtain ⟨ha, hc, hd, hr⟩ := h
  have hinj : ∀ {m n : UInt32}, m.toUInt64 = n.toUInt64 → m = n := by
    intro m n hmn
    have hnat := congrArg UInt64.toNat hmn
    rw [UInt32.toNat_toUInt64, UInt32.toNat_toUInt64] at hnat
    exact UInt32.toNat_inj.mp hnat
  rw [hinj ha, hinj hc, hinj hd, hinj hr]

/-- Records with one hash hold the same. -/
theorem sameRecord_of_preimage (hcodec : codec.Distinct) {r s : Record φ} (hr : r.hasSeparator = false)
    (hs : s.hasSeparator = false) (hrp : r.ChainedPrev) (hsp : s.ChainedPrev) (hhash : r.hash = s.hash)
    (h : r.preimage codec = s.preimage codec) : SameRecord r s := by
  have hdigits : ∀ m n : UInt64, Nat.toDigits 10 m.toNat = Nat.toDigits 10 n.toNat → m = n := by
    intro m n hmn
    exact UInt64.toNat_inj.mp (toDigits_injective hmn)
  obtain ⟨hfirst, hdecision, hlast, hlater⟩ := pieces_eq hcodec hr hs hrp hsp h
  simp only [List.cons.injEq, and_true, String.toList_inj] at hfirst hlast
  obtain ⟨hseq, hts, hagent, hserver, hmethod, htool⟩ := hfirst
  obtain ⟨hrule, hlatency, hprev⟩ := hlast
  have hperm : (sortEach r.later).Perm (sortEach s.later) := by
    rw [laterMembers_eq, laterMembers_eq] at hlater
    split at hlater <;> split at hlater
    · next h1 h2 => rw [h1, h2]
    · cases hlater
    · cases hlater
    · exact perm_of_print_sortMembers hcodec (Option.some.inj hlater)
  have hknown : ∀ name, name ∈ r.knownLater.map Prod.fst →
      (r.knownLater.lookup name).join.map sortMembers = (s.knownLater.lookup name).join.map sortMembers :=
    fun name hname => lookup_knownLater hperm hname
  have hstring : ∀ o p : Option String, (o.map (Value.string (φ := φ))).map sortMembers =
      (p.map Value.string).map sortMembers → o = p := by
    intro o p hop
    cases o <;> cases p <;> simp_all [sortMembers]
  have hstrings : ∀ o p : Option (List String),
      (o.map fun names => Value.array (φ := φ) (names.map .string)).map sortMembers =
        (p.map fun names => Value.array (names.map .string)).map sortMembers → o = p := by
    intro o p hop
    simp only [Option.map_map, Function.comp_def, sortMembers_strings] at hop
    refine Option.map_injective ?_ hop
    intro names names' hnames
    exact List.map_injective_iff.mpr (fun _ _ => Value.string.inj) (Value.array.inj hnames)
  have hcounts : ∀ o p : Option ToolChanges, (o.map (ToolChanges.toValue (φ := φ))).map sortMembers =
      (p.map ToolChanges.toValue).map sortMembers → o = p := by
    intro o p hop
    simp only [Option.map_map, Function.comp_def] at hop
    exact Option.map_injective (fun _ _ => sortMembers_toValue_injective) hop
  exact {
    seq := hdigits _ _ hseq
    tsUnixMs := hdigits _ _ hts
    agent := hagent
    server := hserver
    method := hmethod
    tool := htool
    decision := hdecision
    rule := hrule
    latencyMs := hdigits _ _ hlatency
    kind := hstring _ _ (hknown "kind" (by rw [map_fst_knownLater]; decide))
    uri := hstring _ _ (hknown "uri" (by rw [map_fst_knownLater]; decide))
    transforms := hstrings _ _ (hknown "transforms" (by rw [map_fst_knownLater]; decide))
    actor := hstring _ _ (hknown "actor" (by rw [map_fst_knownLater]; decide))
    peer := hstring _ _ (hknown "peer" (by rw [map_fst_knownLater]; decide))
    configFrom := hstring _ _ (hknown "config_from" (by rw [map_fst_knownLater]; decide))
    configTo := hstring _ _ (hknown "config_to" (by rw [map_fst_knownLater]; decide))
    toolChanges := hcounts _ _ (hknown "tool_changes" (by rw [map_fst_knownLater]; decide))
    extra := value_extra hperm
    prevHash := hprev
    hash := hhash }

/-! ### Two files -/

/-- What is hashed to verify a file. -/
def hashed (codec : FloatCodec φ) (file : Bytes) : List Bytes :=
  match readAll codec file with
  | .ok rs => rs.map (Record.preimage codec)
  | .error _ => []

/-- No two of the inputs have one digest. -/
def CollisionFree (sha256 : Bytes → Bytes) (inputs : List Bytes) : Prop :=
  ∀ a ∈ inputs, ∀ b ∈ inputs, sha256 a = sha256 b → a = b

/-- Files accepted with one head and one count, no record of theirs ambiguous, hold the same records. -/
theorem sameRecords_of_sealed (hcodec : codec.Distinct) {file file' : Bytes} {head : String} {count : UInt64}
    {rep rep' : VerifyReport} (h : verifyAgainst codec sha256 file head count = .ok rep) (hok : rep.ok = true)
    (hambiguous : rep.ambiguous = []) (h' : verifyAgainst codec sha256 file' head count = .ok rep')
    (hok' : rep'.ok = true) (hambiguous' : rep'.ambiguous = [])
    (hsha : CollisionFree sha256 (hashed codec file ++ hashed codec file')) :
    ∃ rs rs', readAll codec file = .ok rs ∧ readAll codec file' = .ok rs' ∧ List.Forall₂ SameRecord rs rs' := by
  have hclean : ∀ rs : List (Record φ), (rs.filter Record.hasSeparator).map Record.seq = [] →
      ∀ r ∈ rs, r.hasSeparator = false := by
    intro rs hrs r hr
    rw [List.map_eq_nil_iff, List.filter_eq_nil_iff] at hrs
    simpa using hrs r hr
  obtain ⟨rs, hrs, hintact, hhead, hcount, hsep⟩ := intact_of_verifyAgainst h hok
  obtain ⟨rs', hrs', hintact', hhead', hcount', hsep'⟩ := intact_of_verifyAgainst h' hok'
  rw [hambiguous] at hsep
  rw [hambiguous'] at hsep'
  have hread := readAll_eq_ok_iff.mpr hrs
  have hread' := readAll_eq_ok_iff.mpr hrs'
  refine ⟨rs, rs', hread, hread', ?_⟩
  have hlength : rs.length = rs'.length := by
    rw [← hintact.records_eq, ← hintact'.records_eq, hcount, hcount']
  have hends : headAfter (scheme codec sha256) genesis rs = headAfter (scheme codec sha256) genesis rs' := by
    rw [← hintact.head_eq, ← hintact'.head_eq, hhead, hhead']
  refine hintact.linked.forall₂ hintact'.linked hlength hends ?_
  intro r hr s hs hdigest hstamp
  have hpreimage : r.preimage codec = s.preimage codec := by
    apply hsha
    · rw [hashed, hread]
      exact List.mem_append_left _ (List.mem_map_of_mem hr)
    · rw [hashed, hashed, hread']
      exact List.mem_append_right _ (List.mem_map_of_mem hs)
    · have hhash : r.computeHash codec sha256 = s.computeHash codec sha256 := hdigest
      rw [computeHash_eq, computeHash_eq] at hhash
      exact hexEncode_injective hhash
  have hsame := sameRecord_of_preimage hcodec (hclean rs hsep.symm r hr) (hclean rs' hsep'.symm s hs)
    (chainedPrev_of_linked hintact.linked r hr) (chainedPrev_of_linked hintact'.linked s hs) hstamp hpreimage
  exact ⟨hsame, hsame.prevHash⟩

private theorem distinct_noFloats : noFloats.Distinct := ⟨fun x => x.elim, fun x => x.elim, fun x => x.elim⟩

/-- SHA-256 of the text hashed for the first record of a plain entry. -/
def plainDigest (_ : Bytes) : Bytes :=
  [0xfc, 0x8f, 0x8c, 0x6b, 0x13, 0x98, 0x66, 0xf3, 0x59, 0xfb, 0x52, 0x2f, 0xf4, 0x7b, 0x5c, 0x8f, 0x88, 0xca,
    0xf1, 0xf0, 0x4b, 0x1a, 0xb9, 0xd3, 0x65, 0x54, 0x48, 0x95, 0xc9, 0xcd, 0x7f, 0x24]

/-- The one record of the two files below. -/
private def plainRecord : Record Empty := (Ledger.mk genesis 0).stamp noFloats plainDigest 0 plainEntry

private theorem verifyAgainst_plainRecord {file : Bytes} (h : recordsOf noFloats (lines file) = some [plainRecord]) :
    verifyAgainst noFloats plainDigest file plainRecord.hash 1 = .ok ⟨1, plainRecord.hash, none, []⟩ := by
  have hclean : plainRecord.hasSeparator = false := by decide +kernel
  have hlinked : Linked (scheme noFloats plainDigest) genesis 0 [plainRecord] := ⟨rfl, rfl, rfl, trivial⟩
  have hone := verifyAgainst_of_linked h hlinked (by simp)
  simpa [scheme, headAfter, hclean] using hone

/-- The file of one record without its newline, and the same file with it. -/
theorem sameRecords_of_sealed_oneRecord :
    ∃ rs rs', readAll noFloats (unfinishedFile noFloats plainDigest) = .ok rs ∧
      readAll noFloats (unfinishedFile noFloats plainDigest ++ [newline]) = .ok rs' ∧
      List.Forall₂ SameRecord rs rs' := by
  obtain ⟨hnl, hne, hline⟩ := recordsOf_unfinishedFile noFloats plainDigest
  have hfirst : recordsOf noFloats (lines (unfinishedFile noFloats plainDigest)) = some [plainRecord] := by
    rw [lines_of_notMem hnl hne]
    simp [recordsOf, hline, plainRecord]
  have hsecond : recordsOf noFloats (lines (unfinishedFile noFloats plainDigest ++ [newline])) = some [plainRecord] := by
    have hstrip : stripCr (unfinishedFile noFloats plainDigest) = unfinishedFile noFloats plainDigest :=
      stripCr_append_line plainRecord []
    have hfile := lines_append_line [] hnl
    simp only [List.nil_append, tail_nil, hstrip] at hfile
    rw [hfile]
    simp [recordsOf, hline, plainRecord, finished, splitLines]
  refine sameRecords_of_sealed distinct_noFloats (verifyAgainst_plainRecord hfirst) rfl rfl
    (verifyAgainst_plainRecord hsecond) rfl rfl ?_
  rw [hashed, hashed, readAll_eq_ok_iff.mpr hfirst, readAll_eq_ok_iff.mpr hsecond]
  simp [CollisionFree]

end Mcpdef.Audit
