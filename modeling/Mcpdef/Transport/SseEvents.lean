import Mcpdef.Transport.SseCuts

/-!
# Events in chunks

The events of a body are those of the whole body exactly where no chunk ends between the CR and LF of two lines of one
event, or inside a character of a line that its event keeps (`received_eq_iff`).

Reading in chunks can only add events, and make what an event keeps longer, so where it makes a difference at all the
events differ.
-/

namespace Mcpdef.Transport

open ByteText Utf8Lossy

/-! ### What an event is made of -/

/-- The values of a field. -/
def valuesOf (field : List Char) (lines : List (List Char)) : List (List Char) :=
  (lines.filter fun line => fieldOf line = field).map valueOf

def addData (data value : List Char) : List Char := (if data.isEmpty then [] else data ++ ['\n']) ++ value

/-- What lines make of an event: the last of a field counts, but the data are joined. -/
def SseEvent.takeAll (ev : SseEvent) (lines : List (List Char)) : SseEvent where
  event := (valuesOf "event".toList lines).getLast?.or ev.event
  data := (valuesOf "data".toList lines).foldl addData ev.data
  id := (valuesOf "id".toList lines).getLast?.or ev.id

theorem skipped_iff (line : List Char) : skipped line = true ↔ fieldOf line = [] := by
  cases line with
  | nil => simp [skipped, fieldOf]
  | cons c cs => by_cases hc : c = ':' <;> simp [skipped, fieldOf, hc]

theorem valuesOf_cons_self {field line : List Char} (h : fieldOf line = field) (lines : List (List Char)) :
    valuesOf field (line :: lines) = valueOf line :: valuesOf field lines := by
  simp [valuesOf, h]

theorem valuesOf_cons_of_ne {field line : List Char} (h : fieldOf line ≠ field) (lines : List (List Char)) :
    valuesOf field (line :: lines) = valuesOf field lines := by
  simp [valuesOf, h]

theorem getLast?_cons_or {α : Type} (a : α) (as : List α) (o : Option α) :
    ((a :: as).getLast?).or o = (as.getLast?).or (some a) := by
  cases as with
  | nil => rfl
  | cons b bs => rw [List.getLast?_cons_cons]; cases h : (b :: bs).getLast? <;> simp_all

theorem takeAll_cons (ev : SseEvent) (line : List Char) (lines : List (List Char)) :
    ev.takeAll (line :: lines) = (ev.take line).takeAll lines := by
  unfold SseEvent.take
  by_cases he : fieldOf line = "event".toList
  · have hd : fieldOf line ≠ "data".toList := by rw [he]; decide
    have hi : fieldOf line ≠ "id".toList := by rw [he]; decide
    rw [if_pos he, SseEvent.takeAll, valuesOf_cons_self he, valuesOf_cons_of_ne hd, valuesOf_cons_of_ne hi,
      getLast?_cons_or]
    rfl
  · by_cases hd : fieldOf line = "data".toList
    · have hi : fieldOf line ≠ "id".toList := by rw [hd]; decide
      rw [if_neg he, if_pos hd, SseEvent.takeAll, valuesOf_cons_of_ne he, valuesOf_cons_self hd,
        valuesOf_cons_of_ne hi]
      rfl
    · by_cases hi : fieldOf line = "id".toList
      · rw [if_neg he, if_neg hd, if_pos hi, SseEvent.takeAll, valuesOf_cons_of_ne he, valuesOf_cons_of_ne hd,
          valuesOf_cons_self hi, getLast?_cons_or]
        rfl
      · rw [if_neg he, if_neg hd, if_neg hi, SseEvent.takeAll, valuesOf_cons_of_ne he, valuesOf_cons_of_ne hd,
          valuesOf_cons_of_ne hi]
        rfl

theorem parseLines_eq (lines : List (List Char)) : parseLines lines =
    if lines.any fun line => !skipped line then some (SseEvent.default.takeAll lines) else none := by
  have hfold : ∀ ev has, lines.foldl parseLine (ev, has) =
      (ev.takeAll lines, has || lines.any fun line => !skipped line) := by
    induction lines with
    | nil =>
      intro ev has
      simp [SseEvent.takeAll, valuesOf]
    | cons line lines ih =>
      intro ev has
      rw [List.foldl_cons, takeAll_cons, parseLine]
      by_cases hs : skipped line = true
      · have hname := (skipped_iff line).mp hs
        have htake : ev.take line = ev := by
          unfold SseEvent.take
          rw [hname]
          rfl
        rw [if_pos hs, ih, htake]
        simp [hs]
      · rw [if_neg hs, ih]
        simp [hs]
  rw [parseLines, hfold, Bool.false_or]

/-- Lines that are all skipped make no difference. -/
theorem valuesOf_of_skipped {field : List Char} (hf : field ≠ []) {lines : List (List Char)}
    (h : ∀ line ∈ lines, skipped line = true) : valuesOf field lines = [] := by
  unfold valuesOf
  rw [List.filter_eq_nil_iff.mpr, List.map_nil]
  intro line hl
  rw [(skipped_iff line).mp (h line hl)]
  simpa using Ne.symm hf

theorem valuesOf_append (field : List Char) (ls ms : List (List Char)) :
    valuesOf field (ls ++ ms) = valuesOf field ls ++ valuesOf field ms := by
  simp [valuesOf]

theorem parseLines_append_left {ls : List (List Char)} (h : ∀ line ∈ ls, skipped line = true) (ms : List (List Char)) :
    parseLines (ls ++ ms) = parseLines ms := by
  have hany : (ls.any fun line => !skipped line) = false := by
    simpa using h
  simp only [parseLines_eq, List.any_append, hany, Bool.false_or, SseEvent.takeAll, valuesOf_append,
    valuesOf_of_skipped (show "event".toList ≠ [] by decide) h, valuesOf_of_skipped (show "data".toList ≠ [] by decide) h,
    valuesOf_of_skipped (show "id".toList ≠ [] by decide) h, List.nil_append]

theorem parseLines_append_right (ls : List (List Char)) {ms : List (List Char)} (h : ∀ line ∈ ms, skipped line = true) :
    parseLines (ls ++ ms) = parseLines ls := by
  have hany : (ms.any fun line => !skipped line) = false := by
    simpa using h
  simp only [parseLines_eq, List.any_append, hany, Bool.or_false, SseEvent.takeAll, valuesOf_append,
    valuesOf_of_skipped (show "event".toList ≠ [] by decide) h, valuesOf_of_skipped (show "data".toList ≠ [] by decide) h,
    valuesOf_of_skipped (show "id".toList ≠ [] by decide) h, List.append_nil]

theorem parseLines_eq_none_iff (lines : List (List Char)) :
    parseLines lines = none ↔ ∀ line ∈ lines, skipped line = true := by
  rw [parseLines_eq]
  split_ifs with h <;> simpa using h

/-- Runs of lines of which at most one has a field have the event of all of them in a row. -/
theorem filterMap_parseLines {parts : List (List (List Char))}
    (h : (parts.filter fun p => (parseLines p).isSome).length ≤ 1) :
    parts.filterMap parseLines = (parseLines parts.flatten).toList := by
  induction parts with
  | nil => rfl
  | cons p ps ih =>
    cases hp : parseLines p with
    | none =>
      rw [List.filter_cons_of_neg (by simp [hp])] at h
      rw [List.filterMap_cons_none hp, ih h, List.flatten_cons,
        parseLines_append_left ((parseLines_eq_none_iff p).mp hp)]
    | some ev =>
      rw [List.filter_cons_of_pos (by simp [hp]), List.length_cons] at h
      have hnil : (ps.filter fun p => (parseLines p).isSome) = [] := List.length_eq_zero_iff.mp (by omega)
      have hnone : ∀ q ∈ ps, parseLines q = none := by simpa [List.filter_eq_nil_iff] using hnil
      have hskip : ∀ line ∈ ps.flatten, skipped line = true := by
        intro line hl
        obtain ⟨q, hq, hlq⟩ := List.mem_flatten.mp hl
        exact (parseLines_eq_none_iff q).mp (hnone q hq) line hlq
      rw [List.filterMap_cons_some hp, List.flatten_cons, parseLines_append_right p hskip, hp,
        List.filterMap_eq_nil_iff.mpr hnone]
      rfl

/-! ### One line -/

theorem stripSpace_cons_of_ne {c : Char} (h : c ≠ ' ') (cs : List Char) : stripSpace (c :: cs) = c :: cs := by
  unfold stripSpace
  split
  · next heq => exact absurd (List.cons.inj heq).1 h
  · rfl

/-- A character above ASCII is no ASCII one. -/
theorem ne_of_ascii {c a : Char} (hc : ascii c = false) (ha : ascii a = true) : c ≠ a := by
  rintro rfl
  rw [hc] at ha
  cases ha

theorem alike_stripSpace {as bs : List Char} (h : Alike as bs) :
    Alike (stripSpace as) (stripSpace bs) ∧ (stripSpace as = stripSpace bs → as = bs) := by
  cases h with
  | nil => exact ⟨.nil, fun _ => rfl⟩
  | @cons c as bs h =>
    by_cases hc : c = ' '
    · subst hc
      exact ⟨h, fun heq => congrArg _ heq⟩
    · rw [stripSpace_cons_of_ne hc, stripSpace_cons_of_ne hc]
      exact ⟨.cons c h, fun heq => heq⟩
  | @wide c ws as bs hc hws hlen h =>
    obtain ⟨w, ws, rfl⟩ := List.exists_cons_of_length_pos (show 0 < ws.length by omega)
    have hw : w ≠ ' ' := ne_of_ascii (hws w List.mem_cons_self) (by decide)
    rw [stripSpace_cons_of_ne (ne_of_ascii hc (by decide)), List.cons_append, stripSpace_cons_of_ne hw]
    exact ⟨.wide hc hws hlen h, fun heq => heq⟩

/-- Of alike lines with one field, the values are alike, and differ if the lines do. -/
theorem alike_valueOf {as bs : List Char} (h : Alike as bs) (hfield : fieldOf as = fieldOf bs) :
    Alike (valueOf as) (valueOf bs) ∧ (valueOf as = valueOf bs → as = bs) := by
  have hdrop := (h.span (a := ':') (by decide)).2
  have hsplit : as.dropWhile (· ≠ ':') = bs.dropWhile (· ≠ ':') → as = bs := by
    intro heq
    have ha := List.takeWhile_append_dropWhile (p := (· ≠ ':')) (l := as)
    have hb := List.takeWhile_append_dropWhile (p := (· ≠ ':')) (l := bs)
    rw [← ha, ← hb, heq]
    exact congrArg (· ++ _) hfield
  have hhead : ∀ x xs, as.dropWhile (· ≠ ':') = x :: xs → x = ':' := by
    intro x xs hx
    have hnot := List.head?_dropWhile_not (fun c => decide (c ≠ ':')) as
    rw [hx] at hnot
    simpa using hnot
  unfold valueOf
  revert hdrop hsplit hhead
  generalize as.dropWhile (· ≠ ':') = x
  generalize bs.dropWhile (· ≠ ':') = y
  intro hdrop hsplit hhead
  cases hdrop with
  | nil => exact ⟨.nil, fun _ => hsplit rfl⟩
  | @cons c xs ys hxy =>
    obtain ⟨h1, h2⟩ := alike_stripSpace hxy
    refine ⟨h1, fun heq => hsplit ?_⟩
    rw [h2 heq]
  | wide hc => exact absurd (hhead _ _ rfl) (ne_of_ascii hc (by decide))

theorem encode_cons_ascii {c : Char} (hc : ascii c = true) (cs : List Char) :
    encode (c :: cs) = UInt8.ofNat c.toNat :: encode cs := by
  have hle : c.toNat < 0x80 := of_decide_eq_true hc
  rw [encode_cons, utf8EncodeChar_ascii (by omega)]
  rfl

theorem ofNat_toNat_eq_iff {b : UInt8} (hb : b < 0x80) {c : Char} (hc : ascii c = true) :
    Char.ofNat b.toNat = c ↔ b = UInt8.ofNat c.toNat := by
  have hlt : b.toNat < 0x80 := UInt8.lt_iff_toNat_lt.mp hb
  have hle : c.toNat < 0x80 := of_decide_eq_true hc
  have hto : (Char.ofNat b.toNat).toNat = b.toNat := by
    rw [Char.toNat_ofNat, if_pos (by unfold Nat.isValidChar; omega)]
  constructor
  · rintro rfl
    rw [hto, UInt8.ofNat_toNat]
  · intro h
    rw [h, UInt8.toNat_ofNat', Nat.mod_eq_of_lt (by omega), Char.ofNat_toNat]

/-- The field of a line that is read from bytes is that of the bytes. -/
theorem fieldOf_readFrom {field : List Char} (hfield : ∀ c ∈ field, ascii c = true) (bs : Bytes) :
    fieldOf (readFrom none bs) = field ↔ bs.takeWhile (· ≠ 0x3A) = encode field := by
  induction bs generalizing field with
  | nil => cases field <;> simp [fieldOf, readFrom, Utf8Lossy.flush, encode_cons, String.utf8EncodeChar_ne_nil]
  | cons b bs ih =>
    by_cases hb : b < 0x80
    · have hcolon := ofNat_toNat_eq_iff hb (show ascii ':' = true by decide)
      rw [readFrom_cons_of_ascii hb, fieldOf]
      by_cases hb' : b = 0x3A
      · rw [List.takeWhile_cons_of_neg (by simpa using hcolon.mpr hb'), List.takeWhile_cons_of_neg (by simpa using hb')]
        cases field with
        | nil => simp
        | cons c field =>
          rw [encode_cons_ascii (hfield c List.mem_cons_self)]
          simp
      · have hne : Char.ofNat b.toNat ≠ ':' := fun h => hb' (hcolon.mp h)
        rw [List.takeWhile_cons_of_pos (by simpa using hne), List.takeWhile_cons_of_pos (by simpa using hb')]
        cases field with
        | nil => simp
        | cons c field =>
          rw [List.forall_mem_cons] at hfield
          have htail := ih hfield.2
          rw [fieldOf] at htail
          rw [encode_cons_ascii hfield.1, List.cons.injEq, List.cons.injEq, htail, ofNat_toNat_eq_iff hb hfield.1]
    · obtain ⟨c, cs, hcons, hc⟩ := readFrom_cons_of_not_ascii hb bs
      have hne : c ≠ ':' := ne_of_ascii hc (by decide)
      have hbne : b ≠ 0x3A := by
        rintro rfl
        exact hb (by decide)
      rw [hcons, fieldOf, List.takeWhile_cons_of_pos (by simpa using hne), List.takeWhile_cons_of_pos (by simpa using hbne)]
      cases field with
      | nil => simp
      | cons d field =>
        have hd := hfield d List.mem_cons_self
        have hle : d.toNat < 0x80 := of_decide_eq_true hd
        have hbd : b ≠ UInt8.ofNat d.toNat := by
          rintro rfl
          apply hb
          rw [UInt8.lt_iff_toNat_lt, UInt8.toNat_ofNat', Nat.mod_eq_of_lt (by omega)]
          exact hle
        rw [encode_cons_ascii hd, List.cons.injEq, List.cons.injEq]
        simp [ne_of_ascii hc hd, hbd]

namespace Row

variable (r : Row)

theorem alike : Alike r.whole r.pieces := alike_readMarked r.bytes none

theorem whole_eq_pieces_iff : r.whole = r.pieces ↔ cutsCharacter none r.bytes = false := readMarked_eq_iff r.bytes none

theorem fieldOf_whole {field : List Char} (hfield : ∀ c ∈ field, ascii c = true) :
    fieldOf r.whole = field ↔ r.name = encode field := fieldOf_readFrom hfield _

theorem fieldOf_pieces {field : List Char} (hfield : ∀ c ∈ field, ascii c = true) :
    fieldOf r.pieces = field ↔ r.name = encode field := by
  rw [← r.fieldOf_whole hfield]
  exact ((r.alike.span (by decide)).1.eq_iff_of_ascii hfield).symm

theorem skipped_whole : skipped r.whole = true ↔ r.name = [] := by
  rw [skipped_iff, r.fieldOf_whole (by simp), encode_nil]

theorem skipped_pieces : skipped r.pieces = true ↔ r.name = [] := by
  rw [skipped_iff, r.fieldOf_pieces (by simp), encode_nil]

theorem whole_eq_nil_iff : r.whole = [] ↔ r.bytes = [] := by
  unfold whole
  cases r.bytes with
  | nil => simp [readFrom, Utf8Lossy.flush]
  | cons m ms =>
    rw [List.map_cons]
    by_cases hb : m.1 < 0x80
    · simp [readFrom_cons_of_ascii hb]
    · obtain ⟨c, cs, hcons, -⟩ := readFrom_cons_of_not_ascii hb (ms.map Prod.fst)
      simp [hcons]

theorem pieces_eq_nil_iff : r.pieces = [] ↔ r.bytes = [] := by
  rw [← r.whole_eq_nil_iff]
  exact r.alike.eq_nil_iff.symm

/-- Read in chunks, a field's value is alike, and the same only where no chunk ends inside a character of the line. -/
theorem value {field : List Char} (hfield : ∀ c ∈ field, ascii c = true) (h : r.name = encode field) :
    Alike (valueOf r.whole) (valueOf r.pieces) ∧
      (valueOf r.whole = valueOf r.pieces ↔ cutsCharacter none r.bytes = false) := by
  have hw := (r.fieldOf_whole hfield).mpr h
  have hp := (r.fieldOf_pieces hfield).mpr h
  obtain ⟨h1, h2⟩ := alike_valueOf r.alike (hw.trans hp.symm)
  refine ⟨h1, ?_⟩
  rw [← r.whole_eq_pieces_iff]
  exact ⟨h2, fun heq => by rw [heq]⟩

end Row

/-! ### One event -/

/-- The lines of an event, in runs that end where a chunk ends between the CR and LF of a line. -/
def parts : List Row → List (List Row)
  | [] => [[]]
  | r :: rs => if r.parted then [r] :: parts rs else (parts rs).modifyHead (r :: ·)

/-- Whether an event keeps a line's value when `after` follow it: all its data, and the last of its other fields. -/
def Row.Kept (r : Row) (after : List Row) : Prop :=
  r.name = encode "data".toList ∨
    (r.name = encode "event".toList ∧ ∀ r' ∈ after, r'.name ≠ encode "event".toList) ∨
    (r.name = encode "id".toList ∧ ∀ r' ∈ after, r'.name ≠ encode "id".toList)

/-- The chunks end nowhere in the lines of an event that it matters: between CR and LF only before or after all the
lines that are no comments, and inside a character only of a line that the event does not keep. -/
structure Harmless (g : List Row) : Prop where
  together : ((parts g).filter fun p => p.any fun r => r.name ≠ []).length ≤ 1
  uncut : ∀ as r bs, g = as ++ r :: bs → r.Kept bs → cutsCharacter none r.bytes = false

theorem parts_ne_nil (g : List Row) : parts g ≠ [] := by
  cases g with
  | nil => simp [parts]
  | cons r rs =>
    rw [parts]
    split_ifs
    · simp
    · obtain ⟨p, ps, hp⟩ : ∃ p ps, parts rs = p :: ps := List.exists_cons_of_ne_nil (parts_ne_nil rs)
      simp [hp]

theorem flatten_parts (g : List Row) : (parts g).flatten = g := by
  induction g with
  | nil => rfl
  | cons r rs ih =>
    rw [parts]
    split_ifs
    · rw [List.flatten_cons, ih, List.singleton_append]
    · obtain ⟨p, ps, hp⟩ := List.exists_cons_of_ne_nil (parts_ne_nil rs)
      rw [hp, List.flatten_cons] at ih
      rw [hp, List.modifyHead_cons, List.flatten_cons, List.cons_append, ih]

/-- The runs of lines that reading in chunks makes of an event's. -/
theorem splitOn_flatMap_lines {g : List Row} (h : ∀ r ∈ g, r.bytes ≠ []) :
    (g.flatMap Row.lines).splitOn [] = (parts g).map fun p => p.map Row.pieces := by
  induction g with
  | nil => rfl
  | cons r rs ih =>
    rw [List.forall_mem_cons] at h
    have hne : [] ∉ [r.pieces] := by
      rw [List.mem_singleton]
      exact fun heq => h.1 (r.pieces_eq_nil_iff.mp heq.symm)
    rw [List.flatMap_cons, Row.lines, parts]
    split_ifs
    · have hcons : (r.pieces :: [[]]) ++ rs.flatMap Row.lines = [r.pieces] ++ [] :: rs.flatMap Row.lines := rfl
      rw [hcons, List.splitOn_append_cons_self, List.splitOn_eq_singleton hne, ih h.2]
      rfl
    · rw [Pieces.splitOn_append_left hne, ih h.2]
      obtain ⟨p, ps, hp⟩ := List.exists_cons_of_ne_nil (parts_ne_nil rs)
      rw [hp]
      rfl

theorem parts_map (f : Row → List Char) (g : List Row) : ((parts g).map fun p => p.map f).flatten = g.map f := by
  rw [← List.map_flatten, flatten_parts]

theorem any_skipped_pieces (p : List Row) :
    (parseLines (p.map Row.pieces)).isSome = p.any fun r => r.name ≠ [] := by
  rw [Bool.eq_iff_iff, Option.isSome_iff_ne_none, ne_eq, parseLines_eq_none_iff]
  simp [Row.skipped_pieces]

section Values

variable {field : List Char} (hfield : ∀ c ∈ field, ascii c = true) (g : List Row)
include hfield

theorem valuesOf_whole : valuesOf field (g.map Row.whole) =
    (g.filter fun r => r.name = encode field).map fun r => valueOf r.whole := by
  have hfilter : (fun line => decide (fieldOf line = field)) ∘ Row.whole = fun r => decide (r.name = encode field) := by
    funext r
    simp [r.fieldOf_whole hfield]
  rw [valuesOf, List.filter_map, List.map_map, hfilter]
  rfl

theorem valuesOf_pieces : valuesOf field (g.map Row.pieces) =
    (g.filter fun r => r.name = encode field).map fun r => valueOf r.pieces := by
  have hfilter : (fun line => decide (fieldOf line = field)) ∘ Row.pieces = fun r => decide (r.name = encode field) := by
    funext r
    simp [r.fieldOf_pieces hfield]
  rw [valuesOf, List.filter_map, List.map_map, hfilter]
  rfl

end Values

/-- What is true of the last line of a field is true of each that no other of the field follows. -/
theorem forall_getLast?_filter_iff {α : Type} (p : α → Bool) (Q : α → Prop) (g : List α) :
    (∀ r, (g.filter p).getLast? = some r → Q r) ↔
      ∀ as r bs, g = as ++ r :: bs → p r = true → (∀ r' ∈ bs, p r' = false) → Q r := by
  constructor
  · rintro h as r bs rfl hr hbs
    apply h
    have hnil : bs.filter p = [] := List.filter_eq_nil_iff.mpr fun r' hr' => by simp [hbs r' hr']
    rw [List.filter_append, List.filter_cons_of_pos hr, hnil, List.getLast?_append, List.getLast?_singleton, Option.some_or]
  · intro h r hr
    obtain ⟨as, heq⟩ := List.getLast?_eq_some_iff.mp hr
    obtain ⟨l₁, l₂, rfl, h₁, h₂⟩ := List.filter_eq_append_iff.mp heq
    obtain ⟨m₁, m₂, rfl, hm₁, hp, hm₂⟩ := List.filter_eq_cons_iff.mp h₂
    apply h (l₁ ++ m₁) r m₂ (by simp) hp
    intro r' hr'
    simpa using List.filter_eq_nil_iff.mp hm₂ r' hr'

/-- The last value of a field is the same in chunks exactly where no chunk ends inside a character of that line. -/
theorem getLast?_value_iff {field : List Char} (hfield : ∀ c ∈ field, ascii c = true) (g : List Row) :
    (valuesOf field (g.map Row.pieces)).getLast? = (valuesOf field (g.map Row.whole)).getLast? ↔
      ∀ as r bs, g = as ++ r :: bs → r.name = encode field → (∀ r' ∈ bs, r'.name ≠ encode field) →
        cutsCharacter none r.bytes = false := by
  have hiff := forall_getLast?_filter_iff (fun r : Row => decide (r.name = encode field))
    (fun r => cutsCharacter none r.bytes = false) g
  simp only [decide_eq_true_eq, decide_eq_false_iff_not] at hiff
  rw [← hiff, valuesOf_whole hfield, valuesOf_pieces hfield, List.getLast?_map, List.getLast?_map]
  cases hlast : (g.filter fun r => r.name = encode field).getLast? with
  | none => simp
  | some r =>
    have hname : r.name = encode field := by
      have := List.mem_of_getLast? hlast
      simpa using (List.mem_filter.mp this).2
    simp only [Option.map_some, Option.some.injEq, forall_eq']
    rw [eq_comm]
    exact (r.value hfield hname).2

theorem alike_addData {as bs cs ds : List Char} (h : Alike as bs) (h' : Alike cs ds) :
    Alike (addData as cs) (addData bs ds) ∧ (addData as cs = addData bs ds → as = bs ∧ cs = ds) := by
  have hle := h.length_le
  have hle' := h'.length_le
  have heq : as.length = bs.length → as = bs := h.eq_of_length
  have heq' : cs.length = ds.length → cs = ds := h'.eq_of_length
  unfold addData
  by_cases has : as = []
  · obtain rfl := has
    obtain rfl := h.eq_nil_iff.mp rfl
    exact ⟨h', fun heq => ⟨rfl, heq⟩⟩
  · have hbs : bs ≠ [] := fun hb => has (h.eq_nil_iff.mpr hb)
    rw [if_neg (by simpa using has), if_neg (by simpa using hbs)]
    refine ⟨(h.append (.refl _)).append h', fun heq₀ => ?_⟩
    have hlen := congrArg List.length heq₀
    simp only [List.length_append, List.length_cons, List.length_nil] at hlen
    exact ⟨heq (by omega), heq' (by omega)⟩

/-- Joined, values that are alike are the same only where each is. -/
theorem foldl_addData_eq_iff {α : Type} {f g : α → List Char} {l : List α} (hl : ∀ a ∈ l, Alike (f a) (g a))
    {as bs : List Char} (h : Alike as bs) :
    (l.map f).foldl addData as = (l.map g).foldl addData bs ↔ as = bs ∧ ∀ a ∈ l, f a = g a := by
  induction l generalizing as bs with
  | nil => simp
  | cons a l ih =>
    rw [List.forall_mem_cons] at hl
    obtain ⟨hadd, hinj⟩ := alike_addData h hl.1
    rw [List.map_cons, List.map_cons, List.foldl_cons, List.foldl_cons, ih hl.2 hadd, List.forall_mem_cons, ← and_assoc]
    apply and_congr_left'
    exact ⟨hinj, fun heq => by rw [heq.1, heq.2]⟩

theorem data_iff (g : List Row) :
    (valuesOf "data".toList (g.map Row.pieces)).foldl addData [] =
        (valuesOf "data".toList (g.map Row.whole)).foldl addData [] ↔
      ∀ r ∈ g, r.name = encode "data".toList → cutsCharacter none r.bytes = false := by
  have hfield : ∀ c ∈ "data".toList, ascii c = true := List.all_eq_true.mp (by decide)
  rw [valuesOf_whole hfield, valuesOf_pieces hfield, eq_comm, foldl_addData_eq_iff _ .nil]
  · simp only [List.mem_filter, decide_eq_true_eq, true_and, and_imp]
    exact forall_congr' fun r => imp_congr_right fun _ => imp_congr_right fun h => (r.value hfield h).2
  · intro r hr
    exact (r.value hfield (by simpa using (List.mem_filter.mp hr).2)).1

/-- In lines with a field, the event is the same in chunks exactly where no chunk ends inside a character it keeps. -/
theorem takeAll_iff (g : List Row) :
    SseEvent.default.takeAll (g.map Row.pieces) = SseEvent.default.takeAll (g.map Row.whole) ↔
      ∀ as r bs, g = as ++ r :: bs → r.Kept bs → cutsCharacter none r.bytes = false := by
  have hevent : ∀ c ∈ "event".toList, ascii c = true := List.all_eq_true.mp (by decide)
  have hid : ∀ c ∈ "id".toList, ascii c = true := List.all_eq_true.mp (by decide)
  simp only [SseEvent.takeAll, SseEvent.default, Option.or_none, SseEvent.mk.injEq, data_iff,
    getLast?_value_iff hevent, getLast?_value_iff hid]
  constructor
  · rintro ⟨he, hd, hi⟩ as r bs hg (hdata | ⟨hevent, hlast⟩ | ⟨hid, hlast⟩)
    · exact hd r (by simp [hg]) hdata
    · exact he as r bs hg hevent hlast
    · exact hi as r bs hg hid hlast
  · intro h
    refine ⟨fun as r bs hg hr hlast => h as r bs hg (.inr (.inl ⟨hr, hlast⟩)), fun r hr hdata => ?_,
      fun as r bs hg hr hlast => h as r bs hg (.inr (.inr ⟨hr, hlast⟩))⟩
    obtain ⟨as, bs, hg⟩ := List.append_of_mem hr
    exact h as r bs hg (.inl hdata)

section OneEvent

variable {g : List Row} (hg : ∀ r ∈ g, r.bytes ≠ [])
include hg

theorem eventsOf_map_whole : eventsOf (g.map Row.whole) = (parseLines (g.map Row.whole)).toList := by
  apply eventsOf_of_notMem
  rw [List.mem_map]
  rintro ⟨r, hr, hnil⟩
  exact hg r hr (r.whole_eq_nil_iff.mp hnil)

theorem eventsOf_flatMap_lines :
    eventsOf (g.flatMap Row.lines) = ((parts g).map fun p => p.map Row.pieces).filterMap parseLines := by
  rw [eventsOf, splitOn_flatMap_lines hg]

omit hg in
theorem length_filter_parts : (((parts g).map fun p => p.map Row.pieces).filter fun p => (parseLines p).isSome).length =
    ((parts g).filter fun p => p.any fun r => r.name ≠ []).length := by
  rw [List.filter_map, List.length_map]
  congr 2
  funext p
  exact any_skipped_pieces p

theorem length_eventsOf_le : (eventsOf (g.map Row.whole)).length ≤ (eventsOf (g.flatMap Row.lines)).length := by
  rw [eventsOf_map_whole hg, eventsOf_flatMap_lines hg]
  cases hp : parseLines (g.map Row.whole) with
  | none => simp
  | some ev =>
    have hsome : ∃ r ∈ g, r.name ≠ [] := by
      by_contra hnone
      push Not at hnone
      have : parseLines (g.map Row.whole) = none := by
        rw [parseLines_eq_none_iff]
        simpa [Row.skipped_whole] using hnone
      rw [this] at hp
      cases hp
    obtain ⟨r, hr, hname⟩ := hsome
    rw [← flatten_parts g, List.mem_flatten] at hr
    obtain ⟨p, hp, hrp⟩ := hr
    have hany : (parseLines (p.map Row.pieces)).isSome = true := by
      rw [any_skipped_pieces]
      exact List.any_eq_true.mpr ⟨r, hrp, by simpa using hname⟩
    obtain ⟨ev', hev⟩ := Option.isSome_iff_exists.mp hany
    have hmem : ev' ∈ ((parts g).map fun p => p.map Row.pieces).filterMap parseLines :=
      List.mem_filterMap.mpr ⟨_, List.mem_map_of_mem hp, hev⟩
    exact List.length_pos_of_mem hmem

/-- An event is the same in chunks exactly where they are harmless to it. -/
theorem eventsOf_eq_iff : eventsOf (g.flatMap Row.lines) = eventsOf (g.map Row.whole) ↔ Harmless g := by
  have hany : ∀ f : Row → List Char, (∀ r, skipped (f r) = true ↔ r.name = []) →
      ((g.map f).any fun line => !skipped line) = g.any fun r => r.name ≠ [] := by
    intro f hf
    rw [List.any_map]
    congr 1
    funext r
    simp [← hf]
  have hone : ((parts g).filter fun p => p.any fun r => r.name ≠ []).length ≤ 1 →
      (eventsOf (g.flatMap Row.lines) = eventsOf (g.map Row.whole) ↔
        ∀ as r bs, g = as ++ r :: bs → r.Kept bs → cutsCharacter none r.bytes = false) := by
    intro htogether
    rw [eventsOf_flatMap_lines hg, eventsOf_map_whole hg, filterMap_parseLines (by rwa [length_filter_parts]),
      parts_map, ← takeAll_iff, parseLines_eq, parseLines_eq, hany _ Row.skipped_pieces, hany _ Row.skipped_whole]
    split_ifs with hfield
    · simp
    · simp only [Option.toList_none, true_iff]
      rw [takeAll_iff]
      intro as r bs heq hkept
      refine absurd ?_ hfield
      refine List.any_eq_true.mpr ⟨r, by simp [heq], ?_⟩
      rcases hkept with h | ⟨h, -⟩ | ⟨h, -⟩ <;> rw [h] <;> decide
  constructor
  · intro h
    have htogether : ((parts g).filter fun p => p.any fun r => r.name ≠ []).length ≤ 1 := by
      rw [← length_filter_parts]
      have hlen := congrArg List.length h
      rw [eventsOf_flatMap_lines hg, eventsOf_map_whole hg, List.length_filterMap_eq_countP,
        List.countP_eq_length_filter] at hlen
      rw [hlen]
      cases parseLines (g.map Row.whole) <;> simp
    exact ⟨htogether, (hone htogether).mp h⟩
  · rintro ⟨htogether, huncut⟩
    exact (hone htogether).mpr huncut

end OneEvent

/-! ### The whole body -/

/-- The lines of each event, between the blank ones. -/
def groups (rs : List Row) : List (List Row) := rs.splitOnP fun r => r.bytes.isEmpty

/-- The events of a body in chunks, and of its lines: at least as many, and the same exactly where the chunks are
harmless to each event. -/
theorem events_rows (rs : List Row) :
    (eventsOf (rs.map Row.whole)).length ≤ (eventsOf (rs.flatMap Row.lines)).length ∧
      (eventsOf (rs.flatMap Row.lines) = eventsOf (rs.map Row.whole) ↔ ∀ g ∈ groups rs, Harmless g) := by
  induction hn : rs.length using Nat.strongRecOn generalizing rs with
  | ind n ih =>
    by_cases hblank : ∃ r ∈ rs, r.bytes = []
    · obtain ⟨r, hr, hnil⟩ := hblank
      obtain ⟨as, bs, rfl⟩ := List.append_of_mem hr
      rw [List.length_append, List.length_cons] at hn
      obtain ⟨hale, haiff⟩ := ih as.length (by omega) as rfl
      obtain ⟨hble, hbiff⟩ := ih bs.length (by omega) bs rfl
      have hwhole : eventsOf ((as ++ r :: bs).map Row.whole) =
          eventsOf (as.map Row.whole) ++ eventsOf (bs.map Row.whole) := by
        rw [List.map_append, List.map_cons, r.whole_eq_nil_iff.mpr hnil, eventsOf_append_cons_nil]
      have hlines : eventsOf ((as ++ r :: bs).flatMap Row.lines) =
          eventsOf (as.flatMap Row.lines) ++ eventsOf (bs.flatMap Row.lines) := by
        rw [List.flatMap_append, List.flatMap_cons, Row.lines, r.pieces_eq_nil_iff.mpr hnil, List.cons_append,
          eventsOf_append_cons_nil]
        congr 1
        split_ifs
        · exact eventsOf_append_cons_nil [] _
        · rfl
      have hgroups : groups (as ++ r :: bs) = groups as ++ groups bs :=
        List.splitOnP_append_cons as bs (by simp [hnil])
      rw [hwhole, hlines, hgroups, List.forall_mem_append, ← haiff, ← hbiff, List.length_append, List.length_append]
      refine ⟨by omega, fun h => ?_, fun h => by rw [h.1, h.2]⟩
      have hlen := congrArg List.length h
      rw [List.length_append, List.length_append] at hlen
      exact List.append_inj h (by omega)
    · have hg : ∀ r ∈ rs, r.bytes ≠ [] := fun r hr hnil => hblank ⟨r, hr, hnil⟩
      have hgroups : groups rs = [rs] := List.splitOnP_eq_singleton fun r hr => by simpa using hg r hr
      rw [hgroups, List.forall_mem_singleton]
      exact ⟨length_eventsOf_le hg, eventsOf_eq_iff hg⟩

/-- The events of a body are those of the whole body exactly where its chunks are harmless to each event. -/
theorem received_eq_iff (chunks : List Bytes) :
    received chunks = received [chunks.flatten] ↔ ∀ g ∈ groups (rows (marks chunks)), Harmless g := by
  rw [received_chunks, received_flatten]
  exact (events_rows _).2

/-- A CR at the end of a chunk makes one event two. -/
theorem not_received_crLf :
    ¬ received [encode "event: endpoint\r".toList, encode "\ndata: /messages\r\n\r\n".toList] =
      received [[encode "event: endpoint\r".toList, encode "\ndata: /messages\r\n\r\n".toList].flatten] := by
  decide +kernel

end Mcpdef.Transport
