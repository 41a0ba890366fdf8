import Mathlib

/-!
# Text as bytes

UTF-8 between lists of characters and lists of bytes, by the standard library's encoder and decoder, and the lines of
a byte string.  A byte string is its finished lines, each ended by a newline, and a tail that no newline ends.
`lines_append_line` says what appending one more line does: it joins the tail, if there is one.
-/

namespace ByteText

/-- A byte string: the content of a file. -/
abbrev Bytes := List UInt8

/-! ### UTF-8 -/

/-- The UTF-8 encoding of `cs`. -/
def encode (cs : List Char) : Bytes := cs.flatMap String.utf8EncodeChar

/-- The characters `bs` encodes, if it is valid UTF-8. -/
def decode (bs : Bytes) : Option (List Char) := bs.toByteArray.utf8Decode?.map Array.toList

@[simp] theorem encode_nil : encode [] = [] := rfl

@[simp] theorem encode_cons (c : Char) (cs : List Char) :
    encode (c :: cs) = String.utf8EncodeChar c ++ encode cs := by
  simp [encode]

@[simp] theorem encode_append (cs ds : List Char) : encode (cs ++ ds) = encode cs ++ encode ds := by
  simp [encode]

private theorem toByteArray_encode (cs : List Char) : (encode cs).toByteArray = cs.utf8Encode := by
  simp [encode, List.utf8Encode]

@[simp] theorem decode_encode (cs : List Char) : decode (encode cs) = some cs := by
  simp [decode, toByteArray_encode]

theorem encode_injective : Function.Injective encode := by
  intro cs ds h
  have hd := decode_encode cs
  rw [h, decode_encode] at hd
  exact (Option.some.inj hd).symm

/-- What decodes is the encoding of what it decodes to. -/
theorem eq_encode_of_decode {bs : Bytes} {cs : List Char} (h : decode bs = some cs) : bs = encode cs := by
  unfold decode at h
  obtain ⟨a, ha, rfl⟩ := Option.map_eq_some_iff.mp h
  have hs : bs.toByteArray.utf8Decode?.isSome := by rw [ha]; rfl
  have he := ByteArray.utf8Encode_get_utf8Decode? (b := bs.toByteArray) (h := hs)
  have hg : bs.toByteArray.utf8Decode?.get hs = a := by simp [ha]
  rw [hg, ← toByteArray_encode] at he
  have hl := congrArg (fun b => b.data.toList) he
  simpa using hl.symm

/-- Valid text followed by valid text decodes to the two in a row. -/
theorem decode_append {as bs : Bytes} {cs ds : List Char} (ha : decode as = some cs) (hb : decode bs = some ds) :
    decode (as ++ bs) = some (cs ++ ds) := by
  rw [eq_encode_of_decode ha, eq_encode_of_decode hb, ← encode_append, decode_encode]

/-- An ASCII character is encoded as its own byte. -/
theorem utf8EncodeChar_ascii {c : Char} (h : c.toNat ≤ 0x7f) : String.utf8EncodeChar c = [UInt8.ofNat c.toNat] := by
  simp [String.utf8EncodeChar, h]

/-- A byte below 0x80 encodes only the ASCII character of its own value. -/
theorem toNat_of_mem_utf8EncodeChar {b : UInt8} {c : Char} (hb : b.toNat ≤ 0x7f)
    (h : b ∈ String.utf8EncodeChar c) : c.toNat = b.toNat := by
  have hc : c.toNat < 0x110000 := by
    have := c.valid
    unfold UInt32.isValidChar Nat.isValidChar at this
    unfold Char.toNat
    omega
  simp only [String.utf8EncodeChar, Char.toNat_val] at h
  split_ifs at h <;> simp only [List.mem_cons, List.not_mem_nil, or_false] at h
  · subst h
    rw [UInt8.toNat_ofNat']
    omega
  all_goals
    rcases h with rfl | h
    · rw [UInt8.toNat_ofNat'] at hb
      omega
  · subst h
    rw [UInt8.toNat_ofNat'] at hb
    omega
  · rcases h with rfl | rfl <;> rw [UInt8.toNat_ofNat'] at hb <;> omega
  · rcases h with rfl | rfl | rfl <;> rw [UInt8.toNat_ofNat'] at hb <;> omega

/-- A byte below 0x80 stands in an encoding only for an ASCII character of the text. -/
theorem exists_of_mem_encode {b : UInt8} (hb : b.toNat ≤ 0x7f) {cs : List Char} (h : b ∈ encode cs) :
    ∃ c ∈ cs, c.toNat = b.toNat := by
  obtain ⟨c, hc, hbc⟩ := List.mem_flatMap.mp h
  exact ⟨c, hc, toNat_of_mem_utf8EncodeChar hb hbc⟩

/-- An ASCII byte at the front of an encoding is the first character. -/
theorem eq_cons_of_encode_eq_cons {cs : List Char} {b : UInt8} {bs : Bytes} (hb : b.toNat ≤ 0x7f)
    (h : encode cs = b :: bs) : ∃ c ds, cs = c :: ds ∧ c.toNat = b.toNat ∧ bs = encode ds := by
  cases cs with
  | nil => cases h
  | cons c ds =>
    have hne : String.utf8EncodeChar c ≠ [] := String.utf8EncodeChar_ne_nil
    obtain ⟨x, xs, hx⟩ := List.exists_cons_of_ne_nil hne
    rw [encode_cons, hx, List.cons_append] at h
    obtain ⟨rfl, rfl⟩ := List.cons.inj h
    have hc : c.toNat = x.toNat := toNat_of_mem_utf8EncodeChar hb (by rw [hx]; exact List.mem_cons_self)
    rw [utf8EncodeChar_ascii (by omega)] at hx
    obtain ⟨-, rfl⟩ := List.cons.inj hx
    exact ⟨c, ds, rfl, hc, rfl⟩

/-- A text whose encoding another's begins with is what that text begins with. -/
theorem isPrefix_of_encode {cs ds : List Char} (h : encode cs <+: encode ds) : cs <+: ds := by
  induction cs generalizing ds with
  | nil => exact List.nil_prefix
  | cons c cs ih =>
    obtain ⟨rest, hrest⟩ := h
    rw [encode_cons, List.append_assoc] at hrest
    cases ds with
    | nil => simp at hrest
    | cons d ds =>
      rw [encode_cons] at hrest
      -- The first character of the bytes is both texts' first.
      have hfirst := congrArg (fun bs : Bytes => bs.toByteArray.utf8DecodeChar? 0) hrest
      simp only [List.toByteArray_append, ByteArray.utf8DecodeChar?_utf8EncodeChar_append, Option.some.injEq] at hfirst
      subst hfirst
      obtain ⟨more, rfl⟩ := ih ⟨rest, List.append_cancel_left hrest⟩
      exact ⟨more, rfl⟩

/-! ### Lines -/

/-- The newline byte. -/
def newline : UInt8 := 10

/-- The finished lines of `bs`, without their newlines, and the bytes after the last newline. -/
def splitLines : Bytes → List Bytes × Bytes
  | [] => ([], [])
  | b :: bs =>
    if b = newline then ([] :: (splitLines bs).1, (splitLines bs).2)
    else match splitLines bs with
      | ([], t) => ([], b :: t)
      | (l :: ls, t) => ((b :: l) :: ls, t)

/-- The bytes after the last newline. -/
def tail (bs : Bytes) : Bytes := (splitLines bs).2

/-- A finished line without the carriage return before its newline. -/
def stripCr (l : Bytes) : Bytes := if l.getLast? = some 13 then l.dropLast else l

/-- The lines of `bs`: the finished ones, and the tail if it is not empty. -/
def lines (bs : Bytes) : List Bytes :=
  (splitLines bs).1.map stripCr ++ (if tail bs = [] then [] else [tail bs])

@[simp] theorem lines_nil : lines [] = [] := rfl

@[simp] theorem tail_nil : tail [] = [] := rfl

private theorem splitLines_of_notMem {l : Bytes} (h : newline ∉ l) : splitLines l = ([], l) := by
  induction l with
  | nil => rfl
  | cons b l ih =>
    obtain ⟨hb, hl⟩ := not_or.mp (fun hm => h (List.mem_cons.mpr hm))
    simp [splitLines, ih hl, Ne.symm hb]

private theorem splitLines_line_append {l : Bytes} (h : newline ∉ l) (bs : Bytes) :
    splitLines (l ++ newline :: bs) = (l :: (splitLines bs).1, (splitLines bs).2) := by
  induction l with
  | nil => simp [splitLines]
  | cons b l ih =>
    obtain ⟨hb, hl⟩ := not_or.mp (fun hm => h (List.mem_cons.mpr hm))
    simp [splitLines, ih hl, Ne.symm hb]

/-- A byte string is its finished lines, each with its newline, and its tail. -/
private theorem eq_flatMap_append_tail (bs : Bytes) :
    bs = (splitLines bs).1.flatMap (· ++ [newline]) ++ tail bs ∧
      (∀ l ∈ (splitLines bs).1, newline ∉ l) ∧ newline ∉ tail bs := by
  induction bs with
  | nil => simp [splitLines, tail]
  | cons b bs ih =>
    obtain ⟨he, hl, ht⟩ := ih
    unfold tail at he ht ⊢
    by_cases hb : b = newline
    · simp only [splitLines, if_pos hb, List.flatMap_cons, List.forall_mem_cons]
      exact ⟨by subst hb; simpa using he, ⟨by simp, hl⟩, ht⟩
    · rcases hs : splitLines bs with ⟨_ | ⟨l, ls⟩, t⟩ <;> rw [hs] at he hl ht <;>
        simp only [splitLines, if_neg hb, hs]
      · simp only [List.flatMap_nil, List.nil_append] at he ⊢
        exact ⟨by rw [he], by simp, by simp [ht, Ne.symm hb]⟩
      · simp only [List.flatMap_cons, List.forall_mem_cons] at he hl ⊢
        exact ⟨by rw [he]; simp, ⟨by simp [hl.1, Ne.symm hb], hl.2⟩, ht⟩

private theorem splitLines_flatMap_append {ls : List Bytes} (h : ∀ l ∈ ls, newline ∉ l) (bs : Bytes) :
    splitLines (ls.flatMap (· ++ [newline]) ++ bs) = (ls ++ (splitLines bs).1, (splitLines bs).2) := by
  induction ls with
  | nil => simp
  | cons l ls ih =>
    rw [List.forall_mem_cons] at h
    simp only [List.flatMap_cons, List.append_assoc, List.cons_append, List.nil_append]
    rw [splitLines_line_append h.1, ih h.2]

/-- The lines written out, a newline after each. -/
def unlines (ls : List Bytes) : Bytes := ls.flatMap (· ++ [newline])

@[simp] theorem unlines_nil : unlines [] = [] := rfl

@[simp] theorem unlines_append (ls ms : List Bytes) : unlines (ls ++ ms) = unlines ls ++ unlines ms := by
  simp [unlines]

@[simp] theorem unlines_singleton (l : Bytes) : unlines [l] = l ++ [newline] := by simp [unlines]

/-- The finished lines as they stand in the bytes, a carriage return before the newline included. -/
def complete (bs : Bytes) : List Bytes := (splitLines bs).1

theorem eq_unlines_append_tail (bs : Bytes) : bs = unlines (complete bs) ++ tail bs := (eq_flatMap_append_tail bs).1

theorem newline_notMem_complete (bs : Bytes) : ∀ l ∈ complete bs, newline ∉ l := (eq_flatMap_append_tail bs).2.1

theorem complete_unlines_append {ls : List Bytes} (h : ∀ l ∈ ls, newline ∉ l) (bs : Bytes) :
    complete (unlines ls ++ bs) = ls ++ complete bs := by
  rw [complete, unlines, splitLines_flatMap_append h]
  rfl

theorem complete_of_notMem {bs : Bytes} (h : newline ∉ bs) : complete bs = [] := by
  rw [complete, splitLines_of_notMem h]

/-- Whatever is appended, the finished lines stay, and what is new comes after them. -/
theorem complete_append (bs cs : Bytes) : complete (bs ++ cs) = complete bs ++ complete (tail bs ++ cs) := by
  conv_lhs => rw [eq_unlines_append_tail bs]
  rw [List.append_assoc, complete_unlines_append (newline_notMem_complete bs)]

/-- Written out lines are empty or end in a newline. -/
theorem getLast?_unlines (ls : List Bytes) (h : unlines ls ≠ []) : (unlines ls).getLast? = some newline := by
  rcases ls.eq_nil_or_concat with rfl | ⟨ms, l, rfl⟩
  · exact absurd rfl h
  · simp

/-- Appending a line joins it to the tail, if there is one, and leaves no tail. -/
theorem splitLines_append_line (bs : Bytes) {l : Bytes} (h : newline ∉ l) :
    splitLines (bs ++ l ++ [newline]) = ((splitLines bs).1 ++ [tail bs ++ l], []) := by
  obtain ⟨he, hl, ht⟩ := eq_flatMap_append_tail bs
  have htl : newline ∉ tail bs ++ l := by simp [ht, h]
  conv_lhs => rw [he]
  rw [List.append_assoc, List.append_assoc, splitLines_flatMap_append hl, ← List.append_assoc,
    splitLines_line_append htl]
  rfl

/-- No newline is left in the tail. -/
theorem newline_notMem_tail (bs : Bytes) : newline ∉ tail bs := (eq_flatMap_append_tail bs).2.2

@[simp] theorem tail_append_line (bs : Bytes) {l : Bytes} (h : newline ∉ l) : tail (bs ++ l ++ [newline]) = [] := by
  rw [tail, splitLines_append_line bs h]

/-- Bytes without a newline are all tail. -/
theorem tail_of_notMem {l : Bytes} (h : newline ∉ l) : tail l = l := by
  rw [tail, splitLines_of_notMem h]

/-- Bytes without a newline are one line. -/
theorem lines_of_notMem {l : Bytes} (h : newline ∉ l) (hne : l ≠ []) : lines l = [l] := by
  rw [lines, splitLines_of_notMem h, tail_of_notMem h, if_neg hne]
  rfl

/-- The finished lines of `bs`, as `lines` gives them. -/
def finished (bs : Bytes) : List Bytes := (splitLines bs).1.map stripCr

theorem lines_eq (bs : Bytes) : lines bs = finished bs ++ (if tail bs = [] then [] else [tail bs]) := rfl

/-- Whatever is appended, the finished lines stay. -/
theorem finished_append (bs cs : Bytes) : ∃ ls, finished (bs ++ cs) = finished bs ++ ls := by
  obtain ⟨he, hl, -⟩ := eq_flatMap_append_tail bs
  have hs : splitLines (bs ++ cs) = ((splitLines bs).1 ++ (splitLines (tail bs ++ cs)).1, (splitLines (tail bs ++ cs)).2) := by
    conv_lhs => rw [he]
    rw [List.append_assoc, splitLines_flatMap_append hl]
  exact ⟨_, by rw [finished, hs, List.map_append, finished]⟩

/-- The lines after a line is appended: the old finished ones, and the old tail with the line. -/
theorem lines_append_line (bs : Bytes) {l : Bytes} (h : newline ∉ l) :
    lines (bs ++ l ++ [newline]) = finished bs ++ [stripCr (tail bs ++ l)] := by
  rw [lines, tail_append_line bs h, splitLines_append_line bs h]
  simp [finished]

theorem stripCr_append_of_ne {l : Bytes} {b : UInt8} (hb : b ≠ 13) (t : Bytes) (hl : l.getLast? = some b) :
    stripCr (t ++ l) = t ++ l := by
  rw [stripCr, if_neg]
  simp [List.getLast?_append, hl, hb]

end ByteText
