import Mcpdef.Transport.Sse

/-!
# Where a body is cut

What the events of a body owe to the chunks it comes in.  Each chunk is decoded on its own, and its line endings are
normalized on their own, so a chunk that ends inside a character leaves replacements for it, and one that ends between
CR and LF leaves a blank line.  The lines of the body are taken with the cuts in them (`rows`), and both texts, in
chunks and whole, are read off these.
-/

namespace Mcpdef.Transport

open ByteText Utf8Lossy

/-! ### The lines of a body -/

def cr : UInt8 := 13
def lf : UInt8 := 10

/-- The bytes of the chunks, each with whether a chunk starts at it. -/
def marks (chunks : List Bytes) : Marked :=
  chunks.flatMap fun chunk =>
    match chunk with
    | [] => []
    | b :: bs => (b, true) :: bs.map fun b => (b, false)

/-- A line of a body, and whether a chunk ends between the CR and the LF that end it. -/
structure Row where
  bytes : Marked
  parted : Bool

/-- The lines of a body. -/
def rows : Marked → List Row
  | (b, cut) :: (b', cut') :: ms =>
    if b = cr ∧ b' = lf then ⟨[], cut'⟩ :: rows ms
    else if b = cr ∨ b = lf then ⟨[], false⟩ :: rows ((b', cut') :: ms)
    else (rows ((b', cut') :: ms)).modifyHead fun r => { r with bytes := (b, cut) :: r.bytes }
  | [(b, cut)] => if b = cr ∨ b = lf then [⟨[], false⟩, ⟨[], false⟩] else [⟨[(b, cut)], false⟩]
  | [] => [⟨[], false⟩]

namespace Row

/-- The name of the line's field, which is empty in a comment. -/
def name (r : Row) : Bytes := (r.bytes.map Prod.fst).takeWhile (· ≠ 0x3A)

/-- The line as it is read in one piece. -/
def whole (r : Row) : List Char := readFrom none (r.bytes.map Prod.fst)

/-- The line as it is read in chunks. -/
def pieces (r : Row) : List Char := readMarked none r.bytes

/-- The lines that reading in chunks makes of it. -/
def lines (r : Row) : List (List Char) := r.pieces :: if r.parted then [[]] else []

end Row

/-! ### Normalizing before decoding -/

/-- The bytes with the line endings of each piece normalized. -/
def unifyEndings : Marked → Marked
  | (b, cut) :: (b', cut') :: ms =>
    if b = cr ∧ b' = lf ∧ cut' = false then (lf, cut) :: unifyEndings ms
    else (if b = cr then lf else b, cut) :: unifyEndings ((b', cut') :: ms)
  | [(b, cut)] => [(if b = cr then lf else b, cut)]
  | [] => []

theorem startsPiece_unifyEndings {ms : Marked} (h : StartsPiece ms) : StartsPiece (unifyEndings ms) := by
  induction ms using unifyEndings.induct with
  | case1 b cut b' cut' ms hcond ih =>
    rw [unifyEndings, if_pos hcond]
    simpa [StartsPiece] using h
  | case2 b cut b' cut' ms hcond ih =>
    rw [unifyEndings, if_neg hcond]
    simpa [StartsPiece] using h
  | case3 b cut => simpa [StartsPiece, unifyEndings] using h
  | case4 => exact h

theorem unifyEndings_append (ms : Marked) {ns : Marked} (h : StartsPiece ns) :
    unifyEndings (ms ++ ns) = unifyEndings ms ++ unifyEndings ns := by
  induction ms using unifyEndings.induct with
  | case1 b cut b' cut' ms hcond ih =>
    rw [List.cons_append, List.cons_append, unifyEndings, if_pos hcond, unifyEndings, if_pos hcond, ih, List.cons_append]
  | case2 b cut b' cut' ms hcond ih =>
    rw [List.cons_append, List.cons_append, unifyEndings, if_neg hcond, unifyEndings, if_neg hcond, List.cons_append,
      ← List.cons_append, ih]
  | case3 b cut =>
    cases ns with
    | nil => simp [unifyEndings]
    | cons n ns =>
      obtain ⟨b', cut'⟩ := n
      obtain rfl : cut' = true := h _ rfl
      rw [List.singleton_append, unifyEndings, if_neg (by simp), unifyEndings, List.singleton_append]
  | case4 => rw [unifyEndings, List.nil_append, List.nil_append]

theorem startsPiece_marks (chunks : List Bytes) : StartsPiece (marks chunks) := by
  unfold StartsPiece marks
  induction chunks with
  | nil => simp
  | cons chunk chunks ih =>
    cases chunk with
    | nil => simpa using ih
    | cons b bs => simp

/-- The cut that the first byte is marked with does not matter where no character is begun. -/
theorem readMarked_unifyEndings_cons (b : UInt8) (cut : Bool) (ms : Marked) :
    readMarked none (unifyEndings ((b, cut) :: ms)) = readMarked none (unifyEndings ((b, false) :: ms)) := by
  have hone : ∀ (b : UInt8) (cut : Bool) ms, readMarked none ((b, cut) :: ms) = readMarked none ((b, false) :: ms) := by
    intro b cut ms
    cases cut <;> simp [readMarked, Utf8Lossy.flush, Utf8Lossy.step]
  cases ms with
  | nil => rw [unifyEndings, unifyEndings, hone]
  | cons m ms =>
    rw [unifyEndings, unifyEndings]
    split_ifs <;> exact hone ..

/-! ### Decoding line endings -/

theorem normalizeEndings_append {cs : List Char} (h : '\r' ∉ cs) (ds : List Char) :
    normalizeEndings (cs ++ ds) = cs ++ normalizeEndings ds := by
  induction cs with
  | nil => rfl
  | cons c cs ih =>
    rw [List.mem_cons, not_or] at h
    have hreplace : replaceCrLf (c :: (cs ++ ds)) = c :: replaceCrLf (cs ++ ds) := by
      rw [replaceCrLf]
      intro es hc _
      exact h.1 hc.symm
    have ih := ih h.2
    rw [normalizeEndings] at ih ⊢
    rw [List.cons_append, hreplace, List.map_cons, ih, if_neg (Ne.symm h.1), List.cons_append]

theorem normalizeEndings_crLf (cs : List Char) :
    normalizeEndings ('\r' :: '\n' :: cs) = '\n' :: normalizeEndings cs := by
  rw [normalizeEndings, replaceCrLf]
  rfl

theorem normalizeEndings_cr {cs : List Char} (h : ∀ ds, cs ≠ '\n' :: ds) :
    normalizeEndings ('\r' :: cs) = '\n' :: normalizeEndings cs := by
  have hreplace : replaceCrLf ('\r' :: cs) = '\r' :: replaceCrLf cs := by
    rw [replaceCrLf]
    intro ds _ heq
    exact h ds heq
  rw [normalizeEndings, hreplace]
  rfl

theorem cr_notMem_flush (st : Option Utf8Lossy.Begun) : '\r' ∉ Utf8Lossy.flush st := by
  cases st <;> simp [Utf8Lossy.flush, replacement]

theorem newline_notMem_flush (st : Option Utf8Lossy.Begun) : '\n' ∉ Utf8Lossy.flush st := by
  cases st <;> simp [Utf8Lossy.flush, replacement]

/-- A character above ASCII, or another line's first, is no newline. -/
theorem readFrom_ne_newline {bs : Bytes} (h : bs.head? ≠ some lf) (cs : List Char) : readFrom none bs ≠ '\n' :: cs := by
  intro heq
  cases bs with
  | nil => cases heq
  | cons b bs =>
    by_cases hb : b < 0x80
    · rw [readFrom_cons_of_ascii hb] at heq
      apply h
      have hc := congrArg Char.toNat (List.cons.inj heq).1
      rw [List.head?_cons, Option.some.injEq, ← UInt8.toNat_inj]
      rw [UInt8.lt_iff_toNat_lt] at hb
      have hlt : b.toNat < 0x80 := hb
      rw [Char.toNat_ofNat, if_pos (by unfold Nat.isValidChar; omega)] at hc
      exact hc
    · obtain ⟨c, cs', hcons, hc⟩ := readFrom_cons_of_not_ascii hb bs
      rw [hcons] at heq
      rw [(List.cons.inj heq).1] at hc
      revert hc
      decide

/-- A byte that is not its code gives no such character. -/
theorem notMem_step {st : Option Utf8Lossy.Begun} {b : UInt8} {c : Char} (hc : ascii c = true) (hb : b.toNat ≠ c.toNat) :
    c ∉ (Utf8Lossy.step st b).1 := by
  intro h
  obtain ⟨hlt, rfl⟩ := ascii_of_mem_step h hc
  rw [UInt8.lt_iff_toNat_lt] at hlt
  have hlt : b.toNat < 0x80 := hlt
  rw [Char.toNat_ofNat, if_pos (by unfold Nat.isValidChar; omega)] at hb
  exact hb rfl

theorem step_lf (st : Option Utf8Lossy.Begun) : Utf8Lossy.step st lf = (Utf8Lossy.flush st ++ ['\n'], none) :=
  step_of_ascii st (by decide)

theorem step_cr (st : Option Utf8Lossy.Begun) : Utf8Lossy.step st cr = (Utf8Lossy.flush st ++ ['\r'], none) :=
  step_of_ascii st (by decide)

theorem ne_cr_iff (b : UInt8) : b ≠ cr ↔ b.toNat ≠ '\r'.toNat := by
  rw [not_iff_not, ← UInt8.toNat_inj]
  rfl

theorem ne_lf_iff (b : UInt8) : b ≠ lf ↔ b.toNat ≠ '\n'.toNat := by
  rw [not_iff_not, ← UInt8.toNat_inj]
  rfl

theorem unifyEndings_cons {b : UInt8} {cut : Bool} {ms : Marked} (h : ¬ (b = cr ∧ ms.head? = some (lf, false))) :
    unifyEndings ((b, cut) :: ms) = (if b = cr then lf else b, cut) :: unifyEndings ms := by
  cases ms with
  | nil => rfl
  | cons m ms =>
    obtain ⟨b', cut'⟩ := m
    rw [unifyEndings, if_neg (by simpa using h)]

/-- Bytes that are read in one piece can be normalized before. -/
theorem normalizeEndings_readFrom (bs : Bytes) (st : Option Utf8Lossy.Begun) :
    normalizeEndings (readFrom st bs) = readMarked st (unifyEndings (bs.map fun b => (b, false))) := by
  have hone : ∀ b bs, ¬ (b = cr ∧ bs.head? = some lf) →
      (∀ st, normalizeEndings (readFrom st bs) = readMarked st (unifyEndings (bs.map fun b => (b, false)))) →
      ∀ st, normalizeEndings (readFrom st (b :: bs)) =
        readMarked st (unifyEndings ((b :: bs).map fun b => (b, false))) := by
    intro b bs hnot ih st
    rw [List.map_cons, unifyEndings_cons (by simpa using hnot), readMarked,
      if_neg Bool.false_ne_true, readFrom]
    by_cases hb : b = cr
    · subst hb
      have hhead : bs.head? ≠ some lf := fun h => hnot ⟨rfl, h⟩
      rw [if_pos rfl, step_cr, step_lf, List.append_assoc, normalizeEndings_append (cr_notMem_flush st),
        List.singleton_append, normalizeEndings_cr (readFrom_ne_newline hhead), ih]
      simp
    · rw [if_neg hb, normalizeEndings_append (notMem_step (by decide) ((ne_cr_iff b).mp hb)), ih]
  induction bs using List.twoStepInduction generalizing st with
  | nil =>
    have := normalizeEndings_append (cr_notMem_flush st) []
    rw [List.append_nil] at this
    exact this.trans (List.append_nil _)
  | singleton b =>
    apply hone b [] (by simp)
    intro st
    have := normalizeEndings_append (cr_notMem_flush st) []
    rw [List.append_nil] at this
    exact this.trans (List.append_nil _)
  | cons_cons b b' bs ih ih' =>
    by_cases hcrlf : b = cr ∧ b' = lf
    · obtain ⟨rfl, rfl⟩ := hcrlf
      rw [List.map_cons, List.map_cons, unifyEndings, if_pos ⟨rfl, rfl, rfl⟩, readMarked, if_neg Bool.false_ne_true,
        readFrom, readFrom, step_cr, step_lf, step_lf, List.append_assoc, normalizeEndings_append (cr_notMem_flush st)]
      simp only [Utf8Lossy.flush, List.nil_append, List.singleton_append, List.append_assoc, normalizeEndings_crLf, ih]
    · apply hone b (b' :: bs) (by simpa using hcrlf)
      exact ih' b'

/-- The text of the chunks in a row. -/
theorem flatMap_normalizeEndings (chunks : List Bytes) :
    (chunks.flatMap fun chunk => normalizeEndings (fromUtf8Lossy chunk)) =
      readMarked none (unifyEndings (marks chunks)) := by
  induction chunks with
  | nil => rfl
  | cons chunk chunks ih =>
    have hpiece := startsPiece_marks chunks
    have happend : marks (chunk :: chunks) = marks [chunk] ++ marks chunks := by simp [marks]
    rw [List.flatMap_cons, ih, happend, unifyEndings_append _ hpiece,
      readMarked_append _ _ (startsPiece_unifyEndings hpiece), fromUtf8Lossy, normalizeEndings_readFrom]
    cases chunk with
    | nil => rfl
    | cons b bs =>
      have hmarks : marks [b :: bs] = (b, true) :: bs.map fun b => (b, false) := by simp [marks]
      rw [hmarks, readMarked_unifyEndings_cons, List.map_cons]

/-! ### The lines of both texts -/

theorem rows_cons {b : UInt8} {cut : Bool} {ms : Marked} (h : ¬ (b = cr ∧ ∃ cut', ms.head? = some (lf, cut'))) :
    rows ((b, cut) :: ms) =
      if b = cr ∨ b = lf then ⟨[], false⟩ :: rows ms
      else (rows ms).modifyHead fun r => { r with bytes := (b, cut) :: r.bytes } := by
  cases ms with
  | nil => rw [rows, rows, List.modifyHead_cons]
  | cons m ms =>
    obtain ⟨b', cut'⟩ := m
    rw [rows, if_neg (by simpa using h)]

theorem rows_ne_nil (ms : Marked) : rows ms ≠ [] := by
  induction ms using List.twoStepInduction with
  | nil => simp [rows]
  | singleton m =>
    obtain ⟨b, cut⟩ := m
    rw [rows]
    split_ifs <;> simp
  | cons_cons m m' ms ih ih' =>
    obtain ⟨b, cut⟩ := m
    obtain ⟨b', cut'⟩ := m'
    rw [rows]
    split_ifs <;> simp [ih']

/-- The lines of the first row, which a character may be begun before. -/
def firstLines (st : Option Utf8Lossy.Begun) (r : Row) : List (List Char) := readMarked st r.bytes :: if r.parted then [[]] else []

theorem splitOn_flush_append (st : Option Utf8Lossy.Begun) (cs : List Char) :
    (Utf8Lossy.flush st ++ '\n' :: cs).splitOn '\n' = Utf8Lossy.flush st :: cs.splitOn '\n' := by
  rw [List.splitOn_append_cons_self, List.splitOn_eq_singleton (newline_notMem_flush st), List.singleton_append]

/-- What a byte that ends no line gives stands first, and the state after it. -/
theorem readMarked_cons (st : Option Utf8Lossy.Begun) {b : UInt8} (hb : b ≠ lf) (cut : Bool) :
    ∃ cs st', '\n' ∉ cs ∧ ∀ ms, readMarked st ((b, cut) :: ms) = cs ++ readMarked st' ms := by
  have hstep : ∀ st, '\n' ∉ (Utf8Lossy.step st b).1 := fun st => notMem_step (by decide) ((ne_lf_iff b).mp hb)
  by_cases hcut : cut = true
  · refine ⟨Utf8Lossy.flush st ++ (Utf8Lossy.start b).1, (Utf8Lossy.start b).2, ?_, fun ms => by simp [readMarked, hcut]⟩
    rw [List.mem_append, not_or]
    exact ⟨newline_notMem_flush st, hstep none⟩
  · exact ⟨(Utf8Lossy.step st b).1, (Utf8Lossy.step st b).2, hstep st, fun ms => by simp [readMarked, hcut]⟩

theorem readMarked_lf (st : Option Utf8Lossy.Begun) (cut : Bool) (ms : Marked) :
    readMarked st ((lf, cut) :: ms) = Utf8Lossy.flush st ++ '\n' :: readMarked none ms := by
  rw [readMarked]
  split_ifs
  · rfl
  · rw [step_lf, List.append_assoc, List.singleton_append]

/-- The lines that the chunks' text has. -/
theorem splitOn_readMarked (ms : Marked) (st : Option Utf8Lossy.Begun) {r : Row} {rs : List Row} (h : rows ms = r :: rs) :
    (readMarked st (unifyEndings ms)).splitOn '\n' = firstLines st r ++ rs.flatMap Row.lines := by
  -- The row after a line end starts with no character begun.
  have hnone : ∀ ms, (∀ st r rs, rows ms = r :: rs →
      (readMarked st (unifyEndings ms)).splitOn '\n' = firstLines st r ++ rs.flatMap Row.lines) →
      (readMarked none (unifyEndings ms)).splitOn '\n' = (rows ms).flatMap Row.lines := by
    intro ms ih
    obtain ⟨r, rs, hr⟩ := List.exists_cons_of_ne_nil (rows_ne_nil ms)
    rw [ih none r rs hr, hr]
    rfl
  have hone : ∀ b cut ms, ¬ (b = cr ∧ ∃ cut', ms.head? = some (lf, cut')) →
      (∀ st r rs, rows ms = r :: rs →
        (readMarked st (unifyEndings ms)).splitOn '\n' = firstLines st r ++ rs.flatMap Row.lines) →
      ∀ st r rs, rows ((b, cut) :: ms) = r :: rs →
        (readMarked st (unifyEndings ((b, cut) :: ms))).splitOn '\n' = firstLines st r ++ rs.flatMap Row.lines := by
    intro b cut ms hnot ih st r rs h
    rw [rows_cons hnot] at h
    rw [unifyEndings_cons fun hand => hnot ⟨hand.1, false, hand.2⟩]
    split_ifs at h with hend
    · obtain ⟨rfl, rfl⟩ := List.cons.inj h
      have hlf : (if b = cr then lf else b) = lf := by
        split_ifs with hb
        · rfl
        · exact hend.resolve_left hb
      rw [hlf, readMarked_lf, splitOn_flush_append, hnone ms ih]
      rfl
    · rw [not_or] at hend
      obtain ⟨r', rs', hr⟩ := List.exists_cons_of_ne_nil (rows_ne_nil ms)
      rw [hr, List.modifyHead_cons] at h
      obtain ⟨rfl, rfl⟩ := List.cons.inj h
      obtain ⟨cs, st', hcs, hread⟩ := readMarked_cons st hend.2 cut
      rw [if_neg hend.1, hread, Pieces.splitOn_append_left hcs, ih st' r' rs' hr, firstLines, firstLines, hread]
      rfl
  induction ms using List.twoStepInduction generalizing st r rs with
  | nil =>
    obtain ⟨rfl, rfl⟩ := List.cons.inj h
    exact List.splitOn_eq_singleton (newline_notMem_flush st)
  | singleton m =>
    obtain ⟨b, cut⟩ := m
    apply hone b cut [] (by simp) _ st r rs h
    intro st r rs h
    obtain ⟨rfl, rfl⟩ := List.cons.inj h
    exact List.splitOn_eq_singleton (newline_notMem_flush st)
  | cons_cons m m' ms ih ih' =>
    obtain ⟨b, cut⟩ := m
    obtain ⟨b', cut'⟩ := m'
    by_cases hcrlf : b = cr ∧ b' = lf
    · obtain ⟨rfl, rfl⟩ := hcrlf
      rw [rows, if_pos ⟨rfl, rfl⟩] at h
      obtain ⟨rfl, rfl⟩ := List.cons.inj h
      have hms := hnone ms fun st r rs h => ih st h
      by_cases hcut : cut' = true
      · -- The two stay apart, and make two ends.
        rw [unifyEndings, if_neg (by simp [hcut]), if_pos rfl, unifyEndings_cons (by simp [cr, lf]),
          if_neg (by decide), readMarked_lf, readMarked_lf, splitOn_flush_append, splitOn_flush_append, hms,
          firstLines, if_pos hcut]
        rfl
      · rw [unifyEndings, if_pos (by simp [hcut]), readMarked_lf, splitOn_flush_append, hms, firstLines, if_neg hcut]
        rfl
    · exact hone b cut ((b', cut') :: ms) (by simpa using hcrlf) (fun st r rs h => ih' (b', cut') st h) st r rs h

/-- Without the cuts, the lines are read whole. -/
theorem rows_map (ms : Marked) :
    rows (ms.map fun m => (m.1, false)) = (rows ms).map fun r => ⟨r.bytes.map fun m => (m.1, false), false⟩ := by
  induction ms using List.twoStepInduction with
  | nil => rfl
  | singleton m =>
    obtain ⟨b, cut⟩ := m
    rw [List.map_cons, List.map_nil, rows, rows]
    split_ifs <;> rfl
  | cons_cons m m' ms ih ih' =>
    obtain ⟨b, cut⟩ := m
    obtain ⟨b', cut'⟩ := m'
    have hrest := ih' (b', cut')
    rw [List.map_cons] at hrest
    rw [List.map_cons, List.map_cons, rows, rows]
    split_ifs
    · rw [ih]
      rfl
    · rw [hrest]
      rfl
    · rw [hrest]
      obtain ⟨r, rs, hr⟩ := List.exists_cons_of_ne_nil (rows_ne_nil ((b', cut') :: ms))
      rw [hr]
      rfl

theorem readMarked_map (ms : Marked) (st : Option Utf8Lossy.Begun) :
    readMarked st (ms.map fun m => (m.1, false)) = readFrom st (ms.map Prod.fst) := by
  induction ms generalizing st with
  | nil => rfl
  | cons m ms ih =>
    obtain ⟨b, cut⟩ := m
    rw [List.map_cons, readMarked, if_neg Bool.false_ne_true, ih, List.map_cons, readFrom]

theorem map_fst_marks (chunks : List Bytes) : (marks chunks).map Prod.fst = chunks.flatten := by
  induction chunks with
  | nil => rfl
  | cons chunk chunks ih =>
    have happend : marks (chunk :: chunks) = marks [chunk] ++ marks chunks := by simp [marks]
    rw [happend, List.map_append, ih, List.flatten_cons]
    cases chunk with
    | nil => rfl
    | cons b bs => simp [marks, Function.comp_def]

/-- The lines of a body in its chunks. -/
theorem splitOn_chunks (chunks : List Bytes) :
    (chunks.flatMap fun chunk => normalizeEndings (fromUtf8Lossy chunk)).splitOn '\n' =
      (rows (marks chunks)).flatMap Row.lines := by
  obtain ⟨r, rs, hr⟩ := List.exists_cons_of_ne_nil (rows_ne_nil (marks chunks))
  rw [flatMap_normalizeEndings, splitOn_readMarked _ none hr, hr]
  rfl

/-- The lines of the whole body. -/
theorem splitOn_flatten (chunks : List Bytes) :
    (normalizeEndings (fromUtf8Lossy chunks.flatten)).splitOn '\n' = (rows (marks chunks)).map Row.whole := by
  have hmarks : (chunks.flatten.map fun b => (b, false)) = (marks chunks).map fun m => (m.1, false) := by
    rw [← map_fst_marks, List.map_map]
    rfl
  obtain ⟨r, rs, hr⟩ := List.exists_cons_of_ne_nil (rows_ne_nil (marks chunks))
  have hrows := rows_map (marks chunks)
  rw [hr, List.map_cons] at hrows
  have hlines : (fun r : Row => Row.lines ⟨r.bytes.map fun m => (m.1, false), false⟩) = fun r => [Row.whole r] := by
    funext r
    simp [Row.lines, Row.pieces, Row.whole, readMarked_map]
  rw [fromUtf8Lossy, normalizeEndings_readFrom, hmarks, splitOn_readMarked _ none hrows, hr, List.flatMap_map, hlines,
    ← List.map_eq_flatMap, firstLines, readMarked_map]
  rfl

/-- The events of a body in its chunks. -/
theorem received_chunks (chunks : List Bytes) :
    received chunks = eventsOf ((rows (marks chunks)).flatMap Row.lines) := by
  rw [received_eq, textEvents, splitOn_chunks]

/-- The events of the whole body. -/
theorem received_flatten (chunks : List Bytes) :
    received [chunks.flatten] = eventsOf ((rows (marks chunks)).map Row.whole) := by
  rw [received_eq, List.flatMap_singleton, textEvents, splitOn_flatten]

end Mcpdef.Transport
