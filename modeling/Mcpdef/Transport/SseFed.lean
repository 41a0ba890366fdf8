import Mcpdef.Transport.SseEvents

/-!
# Complete events

What chunks complete of a body that may go on, or be cut off: its events up to the last blank line that has come.  More
of a body completes more of its events (`completeEvents_append`), and chunks complete those of the body read in one
piece where they are harmless to each event (`fedFrom_of_intact`).
-/

namespace Mcpdef.Transport

open ByteText Utf8Lossy

/-- The events that chunks complete, from where the parser is. -/
def fedFrom (p : SseParser) : List Bytes → List SseEvent
  | [] => []
  | chunk :: chunks => (p.feed chunk).1 ++ fedFrom (p.feed chunk).2 chunks

/-- The events that are complete in a body that is read in one piece. -/
def completeEvents (body : Bytes) : List SseEvent := (SseParser.feed ⟨[]⟩ body).1

/-- The lines of a body that are ended. -/
def endedRows (chunks : List Bytes) : List Row := (rows (marks chunks)).dropLast

/-- No chunk is harmful to an event: to those that are complete, and to the one that the body ends in, which has no
run of lines with a field ended by a chunk. -/
structure Intact (chunks : List Bytes) : Prop where
  harmless : ∀ g ∈ (groups (endedRows chunks)).dropLast, Harmless g
  unended : ∀ g ∈ (groups (endedRows chunks)).getLast?, ∀ p ∈ (parts g).dropLast, ∀ r ∈ p, r.name = []

/-! ### Events that a blank line ends -/

/-- The events of ended lines that a blank one follows. -/
def endedEvents (lines : List (List Char)) : List SseEvent := (lines.splitOn []).dropLast.filterMap parseLines

theorem endedEvents_append_cons_nil (ls ms : List (List Char)) :
    endedEvents (ls ++ [] :: ms) = eventsOf ls ++ endedEvents ms := by
  have hne : ms.splitOn [] ≠ [] := List.splitOn_ne_nil [] ms
  rw [endedEvents, List.splitOn_append_cons_self, List.dropLast_append_of_ne_nil hne, List.filterMap_append, eventsOf,
    endedEvents]

theorem endedEvents_cons_nil (lines : List (List Char)) : endedEvents ([] :: lines) = endedEvents lines :=
  endedEvents_append_cons_nil [] lines

theorem endedEvents_of_notMem {lines : List (List Char)} (h : [] ∉ lines) : endedEvents lines = [] := by
  rw [endedEvents, List.splitOn_eq_singleton h]
  rfl

/-- The events of a text that are complete. -/
def textEnded (text : List Char) : List SseEvent := endedEvents (text.splitOn '\n').dropLast

theorem textEnded_append (as bs : List Char) :
    textEnded (as ++ '\n' :: '\n' :: bs) = textEvents as ++ textEnded bs := by
  have hcons : ('\n' :: bs).splitOn '\n' = [] :: bs.splitOn '\n' := Pieces.splitOn_cons_self '\n' bs
  have hne : bs.splitOn '\n' ≠ [] := List.splitOn_ne_nil '\n' bs
  rw [textEnded, List.splitOn_append_cons_self, hcons, List.dropLast_append_of_ne_nil (by simp),
    List.dropLast_cons_of_ne_nil hne, endedEvents_append_cons_nil, textEvents, textEnded]

/-- A text without two newlines in a row completes no event. -/
theorem textEnded_of_single {text : List Char} (h : ∀ as bs, text ≠ as ++ '\n' :: '\n' :: bs) : textEnded text = [] := by
  obtain ⟨ls, l, hlines⟩ : ∃ ls l, text.splitOn '\n' = ls ++ [l] :=
    ⟨_, _, (List.dropLast_append_getLast (List.splitOn_ne_nil '\n' text)).symm⟩
  rw [textEnded, hlines, List.dropLast_concat]
  cases ls with
  | nil => rfl
  | cons b ls =>
    have hls : [] ∉ ls := by
      intro hm
      obtain ⟨as, bs, rfl⟩ := List.append_of_mem hm
      obtain ⟨c, cs, hcs⟩ : ∃ c cs, bs ++ [l] = c :: cs := List.exists_cons_of_ne_nil (by simp)
      have hinner : text.splitOn '\n' = (b :: as) ++ [] :: c :: cs := by
        rw [hlines, ← hcs]
        simp
      have hnil : b :: as = [] := inner_of_single h hinner
      cases hnil
    by_cases hb : b = []
    · rw [hb, endedEvents_cons_nil, endedEvents_of_notMem hls]
    · apply endedEvents_of_notMem
      rw [List.mem_cons, not_or]
      exact ⟨Ne.symm hb, hls⟩

theorem feed_ended (p : SseParser) (chunk : Bytes) (text : List Char) :
    textEnded (p.buf ++ normalizeEndings (fromUtf8Lossy chunk) ++ text) =
      (p.feed chunk).1 ++ textEnded ((p.feed chunk).2.buf ++ text) :=
  feed_of_append textEnded_append p chunk text

/-- What chunks complete is what their text in a row does. -/
theorem fedFrom_eq (p : SseParser) (chunks : List Bytes) (hp : ∀ as bs, p.buf ≠ as ++ '\n' :: '\n' :: bs) :
    fedFrom p chunks = textEnded (p.buf ++ chunks.flatMap fun chunk => normalizeEndings (fromUtf8Lossy chunk)) := by
  induction chunks generalizing p with
  | nil => rw [fedFrom, List.flatMap_nil, List.append_nil, textEnded_of_single hp]
  | cons chunk chunks ih =>
    rw [fedFrom, ih, List.flatMap_cons, ← List.append_assoc, feed_ended]
    exact (splitEvents_eq _).2.2

theorem completeEvents_eq (body : Bytes) : completeEvents body = textEnded (normalizeEndings (fromUtf8Lossy body)) := by
  have hfed := fedFrom_eq ⟨[]⟩ [body] (by simp)
  simpa [fedFrom, completeEvents] using hfed

/-! ### More of a body -/

/-- What ends no line completes no event. -/
theorem textEnded_append_of_notMem {text : List Char} {cs : List Char} (h : '\n' ∉ cs) :
    textEnded (text ++ cs) = textEnded text := by
  obtain ⟨ls, l, hlines⟩ : ∃ ls l, text.splitOn '\n' = ls ++ [l] :=
    ⟨_, _, (List.dropLast_append_getLast (List.splitOn_ne_nil '\n' text)).symm⟩
  rw [textEnded, textEnded, Pieces.splitOn_append_of_notMem hlines h, hlines, List.dropLast_concat, List.dropLast_concat]

theorem textEnded_prefix (text more : List Char) : textEnded text <+: textEnded (text ++ more) := by
  obtain ⟨hsplit, hraws, hrest⟩ := splitEvents_eq text
  have hall : ∀ more, textEnded (text ++ more) =
      (splitEvents text).1.filterMap parseEvent ++ textEnded ((splitEvents text).2 ++ more) := by
    intro more
    rw [← flatMap_of_append textEnded_append hraws, ← List.append_assoc, ← hsplit]
  have hnone := hall []
  rw [List.append_nil, List.append_nil, textEnded_of_single hrest, List.append_nil] at hnone
  rw [hall more, hnone]
  exact List.prefix_append ..

/-- What bytes give stands first, and a replacement for a character that is begun. -/
theorem exists_readMarked_append (ms : Marked) (st : Option Utf8Lossy.Begun) :
    ∃ cs st', ∀ ns, readMarked st (ms ++ ns) = cs ++ readMarked st' ns := by
  induction ms generalizing st with
  | nil => exact ⟨[], st, fun ns => rfl⟩
  | cons m ms ih =>
    obtain ⟨b, cut⟩ := m
    by_cases hcut : cut = true
    · obtain ⟨cs, st', hread⟩ := ih (Utf8Lossy.start b).2
      refine ⟨Utf8Lossy.flush st ++ (Utf8Lossy.start b).1 ++ cs, st', fun ns => ?_⟩
      rw [List.cons_append, readMarked, if_pos hcut, hread]
      simp
    · obtain ⟨cs, st', hread⟩ := ih (Utf8Lossy.step st b).2
      refine ⟨(Utf8Lossy.step st b).1 ++ cs, st', fun ns => ?_⟩
      rw [List.cons_append, readMarked, if_neg hcut, hread, List.append_assoc]

/-- An LF that comes after a CR adds nothing to the line's end. -/
theorem unifyEndings_prefix (ms ns : Marked) : unifyEndings ms <+: unifyEndings (ms ++ ns) := by
  induction ms using unifyEndings.induct with
  | case1 b cut b' cut' ms hcond ih =>
    rw [List.cons_append, List.cons_append, unifyEndings, if_pos hcond, unifyEndings, if_pos hcond]
    exact (List.prefix_cons_inj _).mpr ih
  | case2 b cut b' cut' ms hcond ih =>
    rw [List.cons_append, List.cons_append, unifyEndings, if_neg hcond, unifyEndings, if_neg hcond, ← List.cons_append]
    exact (List.prefix_cons_inj _).mpr ih
  | case3 b cut =>
    cases ns with
    | nil => exact List.prefix_refl _
    | cons n ns =>
      obtain ⟨b', cut'⟩ := n
      rw [List.singleton_append, unifyEndings, unifyEndings]
      by_cases hcond : b = cr ∧ b' = lf ∧ cut' = false
      · rw [if_pos hcond, if_pos hcond.1]
        exact (List.prefix_cons_inj _).mpr List.nil_prefix
      · rw [if_neg hcond]
        exact (List.prefix_cons_inj _).mpr List.nil_prefix
  | case4 => exact List.nil_prefix

/-- The events that are complete in a body stay the first of it. -/
theorem completeEvents_append (body more : Bytes) : completeEvents body <+: completeEvents (body ++ more) := by
  have hmarked : ∀ bs, completeEvents bs = textEnded (readMarked none (unifyEndings (bs.map fun b => (b, false)))) := by
    intro bs
    rw [completeEvents_eq, fromUtf8Lossy, normalizeEndings_readFrom]
  obtain ⟨ns, hns⟩ := unifyEndings_prefix (body.map fun b => (b, false)) (more.map fun b => (b, false))
  obtain ⟨cs, st, hread⟩ := exists_readMarked_append (unifyEndings (body.map fun b => (b, false))) none
  have hbody := hread []
  rw [List.append_nil] at hbody
  rw [hmarked, hmarked, List.map_append, ← hns, hread, hbody, readMarked, textEnded_append_of_notMem (newline_notMem_flush st)]
  exact textEnded_prefix cs _

theorem isPrefix_completeEvents {body whole : Bytes} (h : body <+: whole) : completeEvents body <+: completeEvents whole := by
  obtain ⟨more, rfl⟩ := h
  exact completeEvents_append body more

/-! ### In chunks -/

/-- A chunk ends no line that is not ended. -/
theorem parted_getLast (ms : Marked) : ∀ r ∈ (rows ms).getLast?, r.parted = false := by
  induction ms using List.twoStepInduction with
  | nil => simp [rows]
  | singleton m =>
    obtain ⟨b, cut⟩ := m
    rw [rows]
    split_ifs <;> simp
  | cons_cons m m' ms ih ih' =>
    obtain ⟨b, cut⟩ := m
    obtain ⟨b', cut'⟩ := m'
    have hlast : ∀ (r : Row) ms, (r :: rows ms).getLast? = (rows ms).getLast? := by
      intro r ms
      obtain ⟨r', rs, hrs⟩ := List.exists_cons_of_ne_nil (rows_ne_nil ms)
      rw [hrs, List.getLast?_cons_cons]
    rw [rows]
    split_ifs
    · rw [hlast]
      exact ih
    · rw [hlast]
      exact ih' (b', cut')
    · have ih' := ih' (b', cut')
      revert ih'
      obtain ⟨r', rs, hrs⟩ := List.exists_cons_of_ne_nil (rows_ne_nil ((b', cut') :: ms))
      rw [hrs, List.modifyHead_cons]
      cases rs <;> simp

theorem exists_first_blank {rs : List Row} (h : ∃ r ∈ rs, r.bytes = []) :
    ∃ as r bs, rs = as ++ r :: bs ∧ r.bytes = [] ∧ ∀ r ∈ as, r.bytes ≠ [] := by
  induction rs with
  | nil =>
    obtain ⟨r, hr, -⟩ := h
    cases hr
  | cons r rs ih =>
    by_cases hr : r.bytes = []
    · exact ⟨[], r, rs, rfl, hr, by simp⟩
    · obtain ⟨r', hr', hnil⟩ := h
      have hmem : r' ∈ rs := by
        rcases List.mem_cons.mp hr' with rfl | hmem
        · exact absurd hnil hr
        · exact hmem
      obtain ⟨as, b, bs, rfl, hb, has⟩ := ih ⟨r', hmem, hnil⟩
      refine ⟨r :: as, b, bs, rfl, hb, ?_⟩
      rw [List.forall_mem_cons]
      exact ⟨hr, has⟩

/-- The events of lines in chunks, each ended, where the chunks are harmless to them. -/
theorem endedEvents_rows {rs : List Row} (hharmless : ∀ g ∈ (groups rs).dropLast, Harmless g)
    (hunended : ∀ g ∈ (groups rs).getLast?, ∀ p ∈ (parts g).dropLast, ∀ r ∈ p, r.name = []) :
    endedEvents (rs.flatMap Row.lines) = endedEvents (rs.map Row.whole) := by
  induction hn : rs.length using Nat.strongRecOn generalizing rs with
  | ind n ih =>
    by_cases hblank : ∃ r ∈ rs, r.bytes = []
    · -- The lines up to the first blank one are an event.
      obtain ⟨as, r, bs, rfl, hnil, has⟩ := exists_first_blank hblank
      have hwhole : endedEvents ((as ++ r :: bs).map Row.whole) =
          eventsOf (as.map Row.whole) ++ endedEvents (bs.map Row.whole) := by
        rw [List.map_append, List.map_cons, r.whole_eq_nil_iff.mpr hnil, endedEvents_append_cons_nil]
      have hlines : endedEvents ((as ++ r :: bs).flatMap Row.lines) =
          eventsOf (as.flatMap Row.lines) ++ endedEvents (bs.flatMap Row.lines) := by
        rw [List.flatMap_append, List.flatMap_cons, Row.lines, r.pieces_eq_nil_iff.mpr hnil, List.cons_append,
          endedEvents_append_cons_nil]
        congr 1
        split_ifs
        · exact endedEvents_cons_nil _
        · rfl
      have hone : groups as = [as] := List.splitOnP_eq_singleton fun r hr => by simpa using has r hr
      have hgroups : groups (as ++ r :: bs) = as :: groups bs := by
        have happend : groups (as ++ r :: bs) = groups as ++ groups bs :=
          List.splitOnP_append_cons as bs (by simp [hnil])
        rw [happend, hone, List.singleton_append]
      obtain ⟨g, gs, hg⟩ := List.exists_cons_of_ne_nil (show groups bs ≠ [] from List.splitOnP_ne_nil _ bs)
      rw [hgroups, hg, List.dropLast_cons_cons, List.forall_mem_cons] at hharmless
      rw [hgroups, hg, List.getLast?_cons_cons] at hunended
      rw [hwhole, hlines, (eventsOf_eq_iff has).mpr hharmless.1]
      congr 1
      rw [List.length_append, List.length_cons] at hn
      exact ih bs.length (by omega) (by rw [hg]; exact hharmless.2) (by rw [hg]; exact hunended) rfl
    · -- The event that the lines end in is not complete.
      have hg : ∀ r ∈ rs, r.bytes ≠ [] := fun r hr hnil => hblank ⟨r, hr, hnil⟩
      have hgroups : groups rs = [rs] := List.splitOnP_eq_singleton fun r hr => by simpa using hg r hr
      have hwhole : endedEvents (rs.map Row.whole) = [] := by
        apply endedEvents_of_notMem
        rw [List.mem_map]
        rintro ⟨r, hr, hnil⟩
        exact hg r hr (r.whole_eq_nil_iff.mp hnil)
      have hnames : ∀ p ∈ (parts rs).dropLast, ∀ r ∈ p, r.name = [] := hunended rs (by simp [hgroups])
      rw [hwhole, endedEvents, splitOn_flatMap_lines hg, ← List.map_dropLast, List.filterMap_eq_nil_iff]
      intro lines hlines
      obtain ⟨p, hp, rfl⟩ := List.mem_map.mp hlines
      rw [parseLines_eq_none_iff]
      intro line hline
      obtain ⟨r, hr, rfl⟩ := List.mem_map.mp hline
      exact r.skipped_pieces.mpr (hnames p hp r hr)

/-- Where chunks are intact, they complete the events of the body. -/
theorem fedFrom_of_intact {chunks : List Bytes} (h : Intact chunks) : fedFrom ⟨[]⟩ chunks = completeEvents chunks.flatten := by
  obtain ⟨rs, r, hrows⟩ : ∃ rs r, rows (marks chunks) = rs ++ [r] :=
    ⟨_, _, (List.dropLast_append_getLast (rows_ne_nil (marks chunks))).symm⟩
  have hended : endedRows chunks = rs := by rw [endedRows, hrows, List.dropLast_concat]
  have hlines : r.lines = [r.pieces] := by
    have hparted := parted_getLast (marks chunks) r (by simp [hrows])
    simp [Row.lines, hparted]
  have hrs := endedEvents_rows h.harmless h.unended
  rw [hended] at hrs
  rw [fedFrom_eq ⟨[]⟩ chunks (by simp), completeEvents_eq, List.nil_append, textEnded, textEnded, splitOn_chunks,
    splitOn_flatten, hrows, List.flatMap_append, List.map_append, List.flatMap_singleton, hlines,
    List.map_singleton, List.dropLast_concat, List.dropLast_concat, hrs]

/-! ### ASCII text -/

theorem rows_plain {ms : Marked} (h : ∀ m ∈ ms, m.1 ≠ cr) : ∀ r ∈ rows ms, r.parted = false ∧ ∀ m ∈ r.bytes, m ∈ ms := by
  induction ms with
  | nil => simp [rows]
  | cons m ms ih =>
    obtain ⟨b, cut⟩ := m
    rw [List.forall_mem_cons] at h
    have hcr : b ≠ cr := h.1
    have ih := ih h.2
    cases ms with
    | nil =>
      rw [rows]
      split_ifs <;> simp
    | cons m' ms =>
      obtain ⟨b', cut'⟩ := m'
      obtain ⟨r, rs, hrs⟩ := List.exists_cons_of_ne_nil (rows_ne_nil ((b', cut') :: ms))
      have hmem : ∀ r ∈ rows ((b', cut') :: ms), r.parted = false ∧ ∀ m ∈ r.bytes, m ∈ (b, cut) :: (b', cut') :: ms :=
        fun r hr => ⟨(ih r hr).1, fun m hm => List.mem_cons_of_mem _ ((ih r hr).2 m hm)⟩
      rw [rows, if_neg (by simp [hcr])]
      split_ifs with hend
      · rw [List.forall_mem_cons]
        exact ⟨⟨rfl, by simp⟩, hmem⟩
      · rw [hrs, List.forall_mem_cons] at hmem
        rw [hrs, List.modifyHead_cons, List.forall_mem_cons]
        refine ⟨⟨hmem.1.1, ?_⟩, hmem.2⟩
        rw [List.forall_mem_cons]
        exact ⟨List.mem_cons_self, hmem.1.2⟩

theorem parts_unparted {g : List Row} (h : ∀ r ∈ g, r.parted = false) : parts g = [g] := by
  induction g with
  | nil => rfl
  | cons r rs ih =>
    rw [List.forall_mem_cons] at h
    rw [parts, if_neg (by simp [h.1]), ih h.2, List.modifyHead_cons]

theorem cutsCharacter_ascii {ms : Marked} (h : ∀ m ∈ ms, m.1 < 0x80) : cutsCharacter none ms = false := by
  induction ms with
  | nil => rfl
  | cons m ms ih =>
    rw [List.forall_mem_cons] at h
    have hstep : (Utf8Lossy.step none m.1).2 = none := by rw [Utf8Lossy.step, Utf8Lossy.start, if_pos h.1]
    rw [cutsCharacter, hstep, ih h.2]
    simp

theorem mem_groups {rs g : List Row} (hg : g ∈ groups rs) : ∀ r ∈ g, r ∈ rs := by
  induction hn : rs.length using Nat.strongRecOn generalizing rs with
  | ind n ih =>
    by_cases hblank : ∃ r ∈ rs, r.bytes = []
    · obtain ⟨as, r, bs, rfl, hnil, has⟩ := exists_first_blank hblank
      have hone : groups as = [as] := List.splitOnP_eq_singleton fun r hr => by simpa using has r hr
      have happend : groups (as ++ r :: bs) = groups as ++ groups bs :=
        List.splitOnP_append_cons as bs (by simp [hnil])
      rw [happend, hone, List.singleton_append, List.mem_cons] at hg
      rw [List.length_append, List.length_cons] at hn
      intro r' hr'
      rcases hg with rfl | hg
      · exact List.mem_append_left _ hr'
      · exact List.mem_append_right _ (List.mem_cons_of_mem _ (ih bs.length (by omega) hg rfl r' hr'))
    · have hone : groups rs = [rs] := List.splitOnP_eq_singleton fun r hr => by simpa using fun hnil => hblank ⟨r, hr, hnil⟩
      rw [hone, List.mem_singleton] at hg
      rw [hg]
      exact fun r hr => hr

/-- ASCII text without CRs can be cut anywhere. -/
theorem intact_of_ascii {chunks : List Bytes} (h : ∀ b ∈ chunks.flatten, b < 0x80 ∧ b ≠ cr) : Intact chunks := by
  have hmarks : ∀ m ∈ marks chunks, m.1 < 0x80 ∧ m.1 ≠ cr := by
    intro m hm
    apply h
    rw [← map_fst_marks]
    exact List.mem_map_of_mem hm
  have hrows := rows_plain fun m hm => (hmarks m hm).2
  have hgroup : ∀ g ∈ groups (endedRows chunks), ∀ r ∈ g, r.parted = false ∧ ∀ m ∈ r.bytes, m.1 < 0x80 := by
    intro g hg r hr
    have hrow := hrows r (List.dropLast_subset _ (mem_groups hg r hr))
    exact ⟨hrow.1, fun m hm => (hmarks m (hrow.2 m hm)).1⟩
  have hparts : ∀ g ∈ groups (endedRows chunks), parts g = [g] :=
    fun g hg => parts_unparted fun r hr => (hgroup g hg r hr).1
  constructor
  · intro g hg
    have hg := List.dropLast_subset _ hg
    constructor
    · rw [hparts g hg]
      exact List.length_filter_le _ _
    · rintro as r bs rfl -
      exact cutsCharacter_ascii (hgroup _ hg r (by simp)).2
  · intro g hg
    rw [hparts g (List.mem_of_mem_getLast? hg)]
    simp

end Mcpdef.Transport
