import Mcpdef.Lib.JsonRead

/-!
# JSON text over lines

The text of a value laid out in lines, two spaces for each container it is in, or on one line (`layout`, which is the
compact text without line breaks).  Either reads back as the value, each float as what its text reads as
(`read_layout`).
-/

namespace JsonText

variable {φ : Type} {codec : FloatCodec φ}

/-! ### Laying out -/

/-- How a text is laid out: what stands before an item inside so many containers, and what after a member's name. -/
structure Layout where
  newline : Nat → List Char
  colon : List Char
  blank : ∀ n, ∀ c ∈ newline n, isSpace c = true
  colonBlank : ∃ cs, colon = ':' :: cs ∧ ∀ c ∈ cs, isSpace c = true

/-- All on one line. -/
def Layout.compact : Layout where
  newline _ := []
  colon := [':']
  blank _ c h := by cases h
  colonBlank := ⟨[], rfl, fun c h => by cases h⟩

/-- An item a line. -/
def Layout.lines : Layout where
  newline n := '\n' :: List.replicate (2 * n) ' '
  colon := [':', ' ']
  blank n c h := by
    rcases List.mem_cons.mp h with rfl | h
    · rfl
    · rw [List.eq_of_mem_replicate h]
      rfl
  colonBlank := ⟨[' '], rfl, fun c h => by rw [List.mem_singleton.mp h]; rfl⟩

mutual

/-- The text of a value inside `n` containers. -/
def layout (codec : FloatCodec φ) (l : Layout) (n : Nat) : Value φ → List Char
  | .null => ['n', 'u', 'l', 'l']
  | .bool true => ['t', 'r', 'u', 'e']
  | .bool false => ['f', 'a', 'l', 's', 'e']
  | .number k => printNumber codec k
  | .string s => printString s
  | .array [] => ['[', ']']
  | .array (v :: vs) => '[' :: layoutItems codec l (n + 1) (v :: vs) ++ (l.newline n ++ [']'])
  | .object [] => ['{', '}']
  | .object (m :: ms) => '{' :: layoutMembers codec l (n + 1) (m :: ms) ++ (l.newline n ++ ['}'])

def layoutItems (codec : FloatCodec φ) (l : Layout) (n : Nat) : List (Value φ) → List Char
  | [] => []
  | [v] => l.newline n ++ layout codec l n v
  | v :: w :: vs => l.newline n ++ layout codec l n v ++ ',' :: layoutItems codec l n (w :: vs)

def layoutMembers (codec : FloatCodec φ) (l : Layout) (n : Nat) : List (String × Value φ) → List Char
  | [] => []
  | [(k, v)] => l.newline n ++ printString k ++ l.colon ++ layout codec l n v
  | (k, v) :: m :: ms =>
    l.newline n ++ printString k ++ l.colon ++ layout codec l n v ++ ',' :: layoutMembers codec l n (m :: ms)

end

/-- The text of a value spread over lines. -/
def printPretty (codec : FloatCodec φ) (v : Value φ) : List Char := layout codec .lines 0 v

mutual

theorem layout_compact (codec : FloatCodec φ) (n : Nat) : (v : Value φ) → layout codec .compact n v = print codec v
  | .null | .bool true | .bool false | .number _ | .string _ | .array [] | .object [] => rfl
  | .array (v :: vs) => by
    rw [layout, layoutItems_compact codec (n + 1) (v :: vs), print]
    rfl
  | .object (m :: ms) => by
    rw [layout, layoutMembers_compact codec (n + 1) (m :: ms), print]
    rfl

theorem layoutItems_compact (codec : FloatCodec φ) (n : Nat) :
    (vs : List (Value φ)) → layoutItems codec .compact n vs = printItems codec vs
  | [] => rfl
  | [v] => by
    rw [layoutItems, layout_compact codec n v, printItems]
    rfl
  | v :: w :: vs => by
    rw [layoutItems, layout_compact codec n v, layoutItems_compact codec n (w :: vs), printItems]
    rfl

theorem layoutMembers_compact (codec : FloatCodec φ) (n : Nat) :
    (ms : List (String × Value φ)) → layoutMembers codec .compact n ms = printMembers codec ms
  | [] => rfl
  | [(k, v)] => by
    rw [layoutMembers, layout_compact codec n v, printMembers]
    simp [Layout.compact]
  | (k, v) :: m :: ms => by
    rw [layoutMembers, layout_compact codec n v, layoutMembers_compact codec n (m :: ms), printMembers]
    simp [Layout.compact]

end

/-! ### Reading back -/

mutual

/-- How many containers are inside one another. -/
def Value.depth : Value φ → Nat
  | .array vs => itemsDepth vs + 1
  | .object ms => membersDepth ms + 1
  | _ => 0

def itemsDepth : List (Value φ) → Nat
  | [] => 0
  | v :: vs => max v.depth (itemsDepth vs)

def membersDepth : List (String × Value φ) → Nat
  | [] => 0
  | (_, v) :: ms => max v.depth (membersDepth ms)

end

mutual

/-- The value with each float as `f` has it. -/
def Value.mapFloats (f : φ → φ) : Value φ → Value φ
  | .number (.float x) => .number (.float (f x))
  | .array vs => .array (mapItems f vs)
  | .object ms => .object (mapMembers f ms)
  | v => v

def mapItems (f : φ → φ) : List (Value φ) → List (Value φ)
  | [] => []
  | v :: vs => v.mapFloats f :: mapItems f vs

def mapMembers (f : φ → φ) : List (String × Value φ) → List (String × Value φ)
  | [] => []
  | (k, v) :: ms => (k, v.mapFloats f) :: mapMembers f ms

end

/-- The phase a number's text leads to. -/
def numberPhase : List Char → Option NumberPhase
  | [] => none
  | c :: cs =>
    (if c = '-' then some .minus else if c = '0' then some .zero else if c.isDigit then some .int else none).bind
      fun p => cs.foldlM NumberPhase.next p

/-- A float is written as a number's text with a fraction or an exponent, which reads as some float. -/
structure FloatCodec.Writes (codec : FloatCodec φ) (x : φ) : Prop where
  form : numberPhase (codec.write x) = some .frac ∨ numberPhase (codec.write x) = some .expDigits
  reads : (codec.read (codec.write x)).isSome = true

/-- What a float is read back as. -/
def FloatCodec.again (codec : FloatCodec φ) (x : φ) : φ := (codec.read (codec.write x)).getD x

mutual

/-- The floats in a value. -/
def Value.floats : Value φ → List φ
  | .number (.float x) => [x]
  | .array vs => itemsFloats vs
  | .object ms => membersFloats ms
  | _ => []

def itemsFloats : List (Value φ) → List φ
  | [] => []
  | v :: vs => v.floats ++ itemsFloats vs

def membersFloats : List (String × Value φ) → List φ
  | [] => []
  | (_, v) :: ms => v.floats ++ membersFloats ms

end

/-- A state reads whitespace on. -/
def SkipsSpace (codec : FloatCodec φ) (r : Reader φ) : Prop := ∀ c, isSpace c = true → step codec r c = some r

theorem run_space {r : Reader φ} (hr : SkipsSpace codec r) {cs : List Char} (hcs : ∀ c ∈ cs, isSpace c = true)
    (ds : List Char) : run codec r (cs ++ ds) = run codec r ds := by
  induction cs with
  | nil => rfl
  | cons c cs ih =>
    rw [List.forall_mem_cons] at hcs
    rw [List.cons_append, run_cons, hr c hcs.1, Option.bind_some, ih hcs.2]

theorem skipsSpace_value (fs : List (Frame φ)) : SkipsSpace codec ⟨fs, .value⟩ := fun c hc => by simp [step, hc]

theorem skipsSpace_firstItem (fs : List (Frame φ)) : SkipsSpace codec ⟨fs, .firstItem⟩ := fun c hc => by simp [step, hc]

theorem skipsSpace_name (fs : List (Frame φ)) (first : Bool) (done : List (String × Value φ)) :
    SkipsSpace codec ⟨fs, .name first done⟩ := fun c hc => by simp [step, hc]

theorem skipsSpace_after (fs : List (Frame φ)) (v : Value φ) : SkipsSpace codec ⟨fs, .after v⟩ :=
  fun c hc => by simp [step, afterValue, hc]

/-- What a value's text led to, at whitespace and then a character that follows a value. -/
theorem Settles.run_space {r : Reader φ} {fs : List (Frame φ)} {v : Value φ} (h : Settles codec r fs v)
    {cs : List Char} (hcs : ∀ c ∈ cs, isSpace c = true) {d : Char} (hd : d = ',' ∨ d = ']' ∨ d = '}') (ds : List Char) :
    run codec r (cs ++ d :: ds) = (afterValue fs v d).bind (run codec · ds) := by
  cases cs with
  | nil => rw [List.nil_append, run_cons, h.1 d (.inr hd)]
  | cons c cs =>
    rw [List.forall_mem_cons] at hcs
    have hafter : afterValue fs v c = some ⟨fs, .after v⟩ := by simp [afterValue, hcs.1]
    rw [List.cons_append, run_cons, h.1 c (.inl hcs.1), hafter, Option.bind_some,
      JsonText.run_space (skipsSpace_after fs v) hcs.2, run_cons]
    rfl

theorem NumberPhase.le_of_next {p q : NumberPhase} {c : Char} (h : p.next c = some q) : 0x20 ≤ c.toNat := by
  have hc : c.isDigit = true ∨ c = '0' ∨ c = '.' ∨ c = 'e' ∨ c = 'E' ∨ c = '+' ∨ c = '-' := by
    cases p <;> simp only [NumberPhase.next] at h <;> split_ifs at h <;> tauto
  rcases hc with hd | rfl | rfl | rfl | rfl | rfl | rfl
  · exact le_of_isDigit hd
  all_goals decide

/-- A float's text holds no control character. -/
theorem FloatCodec.Writes.le_of_mem {x : φ} (hx : codec.Writes x) : ∀ c ∈ codec.write x, 0x20 ≤ c.toNat := by
  have hfold : ∀ (cs : List Char) (p p' : NumberPhase), cs.foldlM NumberPhase.next p = some p' →
      ∀ c ∈ cs, 0x20 ≤ c.toNat := by
    intro cs
    induction cs with
    | nil => simp
    | cons c cs ih =>
      intro p p' h
      rw [List.foldlM_cons] at h
      obtain ⟨q, hq, h⟩ := Option.bind_eq_some_iff.mp h
      exact List.forall_mem_cons.mpr ⟨NumberPhase.le_of_next hq, ih q p' h⟩
  obtain ⟨p', hphase⟩ : ∃ p', numberPhase (codec.write x) = some p' := by
    rcases hx.form with h | h
    · exact ⟨_, h⟩
    · exact ⟨_, h⟩
  cases hw : codec.write x with
  | nil => simp
  | cons c cs =>
    rw [hw, numberPhase] at hphase
    obtain ⟨p, hp, hphase⟩ := Option.bind_eq_some_iff.mp hphase
    refine List.forall_mem_cons.mpr ⟨?_, hfold cs p p' hphase⟩
    split_ifs at hp with hminus hzero hdigit
    · rw [hminus]
      decide
    · rw [hzero]
      decide
    · exact le_of_isDigit hdigit

/-- A float's text. -/
theorem run_printFloat (fs : List (Frame φ)) {x : φ} (hx : codec.Writes x) :
    ∃ r, run codec ⟨fs, .value⟩ (codec.write x) = some r ∧ Settles codec r fs (.number (.float (codec.again x))) := by
  have hrun : ∀ cs p p' text, cs.foldlM NumberPhase.next p = some p' →
      run codec ⟨fs, .number p text⟩ cs = some ⟨fs, .number p' (cs.reverse ++ text)⟩ := by
    intro cs
    induction cs with
    | nil =>
      intro p p' text h
      cases h
      rfl
    | cons c cs ih =>
      intro p p' text h
      rw [List.foldlM_cons] at h
      obtain ⟨q, hq, h⟩ := Option.bind_eq_some_iff.mp h
      have hstep : step codec ⟨fs, .number p text⟩ c = some ⟨fs, .number q (c :: text)⟩ := by simp [step, hq]
      rw [run_cons, hstep, Option.bind_some, ih q p' _ h]
      simp
  have hread : (codec.read (codec.write x)).map Number.float = some (.float (codec.again x)) := by
    obtain ⟨y, hy⟩ := Option.isSome_iff_exists.mp hx.reads
    rw [FloatCodec.again, hy, Option.map_some, Option.getD_some]
  have hform := hx.form
  cases hw : codec.write x with
  | nil => simp [hw, numberPhase] at hform
  | cons c cs =>
    obtain ⟨p', hp', hphase⟩ : ∃ p', (p' = .frac ∨ p' = .expDigits) ∧ numberPhase (c :: cs) = some p' := by
      rw [hw] at hform
      rcases hform with h | h
      · exact ⟨_, .inl rfl, h⟩
      · exact ⟨_, .inr rfl, h⟩
    rw [numberPhase] at hphase
    obtain ⟨p, hp, hfold⟩ := Option.bind_eq_some_iff.mp hphase
    have hstep : step codec ⟨fs, .value⟩ c = some ⟨fs, .number p [c]⟩ := by
      split_ifs at hp with hminus hzero hdigit
      · cases hp
        rw [hminus]
        rfl
      · cases hp
        rw [hzero]
        rfl
      · cases hp
        have hne : ∀ d : Char, d.isDigit = false → c ≠ d := by
          rintro d hd rfl
          rw [hd] at hdigit
          cases hdigit
        simp [step, startValue, isSpace, hne ' ' rfl, hne '\t' rfl, hne '\n' rfl, hne '\r' rfl, hne '"' rfl,
          hne '[' rfl, hne '{' rfl, hne 'n' rfl, hne 't' rfl, hne 'f' rfl, hminus, hzero, hdigit]
    refine ⟨⟨fs, .number p' (c :: cs).reverse⟩, ?_, settles_number fs (.inr (.inr hp')) ?_⟩
    · rw [run_cons, hstep, Option.bind_some, hrun cs p p' [c] hfold]
      simp
    · rw [hw] at hread
      rcases hp' with rfl | rfl
      · simpa [classify] using hread
      · simpa [classify] using hread

theorem run_layoutNumber (l : Layout) (n : Nat) (fs : List (Frame φ)) {k : Number φ}
    (hv : ∀ x ∈ (Value.number k).floats, codec.Writes x) :
    ∃ r, run codec ⟨fs, .value⟩ (layout codec l n (.number k)) = some r ∧
      Settles codec r fs ((Value.number k).mapFloats codec.again) := by
  cases k with
  | pos k => exact run_printInteger (n := .pos k) fs (by simp)
  | neg k => exact run_printInteger (n := .neg k) fs (by simp)
  | float x => exact run_printFloat fs (hv x (by simp [Value.floats]))

/-- A value's text starts with a character that is neither whitespace nor a closing bracket. -/
theorem layout_head (l : Layout) (n : Nat) {v : Value φ} (hv : ∀ x ∈ v.floats, codec.Writes x) :
    ∃ c cs, layout codec l n v = c :: cs ∧ isSpace c = false ∧ c ≠ ']' := by
  have hdigit : ∀ c : Char, c.isDigit = true → isSpace c = false ∧ c ≠ ']' := by
    intro c hd
    constructor
    · by_contra hsp
      simp only [isSpace, decide_eq_false_iff_not, not_not] at hsp
      rcases hsp with rfl | rfl | rfl | rfl <;> simp at hd
    · rintro rfl
      simp at hd
  cases v with
  | null => exact ⟨_, _, rfl, rfl, by decide⟩
  | bool b => cases b <;> exact ⟨_, _, rfl, rfl, by decide⟩
  | number k =>
    cases k with
    | pos k =>
      obtain ⟨c, cs, hc⟩ := List.exists_cons_of_ne_nil (Nat.toDigits_ne_nil (n := k.toNat) (b := 10))
      have hm : c ∈ Nat.toDigits 10 k.toNat := by rw [hc]; exact List.mem_cons_self
      exact ⟨c, cs, hc, hdigit c (Nat.isDigit_of_mem_toDigits (by decide) (by decide) hm)⟩
    | neg k => exact ⟨_, _, rfl, rfl, by decide⟩
    | float x =>
      have hform := (hv x (by simp [Value.floats])).form
      cases hw : codec.write x with
      | nil => simp [hw, numberPhase] at hform
      | cons c cs =>
        refine ⟨c, cs, hw, ?_⟩
        rw [hw, numberPhase] at hform
        split_ifs at hform with hminus hzero hd
        · rw [hminus]
          exact ⟨rfl, by decide⟩
        · rw [hzero]
          exact ⟨rfl, by decide⟩
        · exact hdigit c hd
        · simp at hform
  | string s => exact ⟨_, _, rfl, rfl, by decide⟩
  | array items => cases items <;> exact ⟨_, _, rfl, rfl, by decide⟩
  | object members => cases members <;> exact ⟨_, _, rfl, rfl, by decide⟩

section Containers

variable (codec) (l : Layout) (n : Nat) (fs : List (Frame φ))

theorem run_layoutItems {vs : List (Value φ)} {ws : List Char} (hws : ∀ c ∈ ws, isSpace c = true)
    (ih : ∀ v ∈ vs, ∀ done, ∃ r, run codec ⟨.array done :: fs, .value⟩ (layout codec l n v) = some r ∧
      Settles codec r (.array done :: fs) (v.mapFloats codec.again)) (hne : vs ≠ []) (done : List (Value φ)) :
    run codec ⟨.array done :: fs, .value⟩ (layoutItems codec l n vs ++ (ws ++ [']'])) =
      some ⟨fs, .after (.array (done.reverse ++ mapItems codec.again vs))⟩ := by
  induction vs generalizing done with
  | nil => exact absurd rfl hne
  | cons v vs ihv =>
    obtain ⟨r, hr, hs⟩ := ih v List.mem_cons_self done
    cases vs with
    | nil =>
      rw [layoutItems, List.append_assoc, run_space (skipsSpace_value _) (l.blank n), run_append_of_eq_some hr,
        hs.run_space hws (.inr (.inl rfl))]
      simp [afterValue, isSpace, mapItems]
    | cons w vs =>
      have hrest := ihv (fun v hv => ih v (List.mem_cons_of_mem _ hv)) (List.cons_ne_nil w vs)
        (v.mapFloats codec.again :: done)
      have hnone : ∀ c ∈ ([] : List Char), isSpace c = true := by simp
      have hcomma := hs.run_space hnone (.inl rfl) (layoutItems codec l n (w :: vs) ++ (ws ++ [']']))
      rw [layoutItems, List.append_assoc, List.append_assoc, run_space (skipsSpace_value _) (l.blank n),
        run_append_of_eq_some hr, List.cons_append]
      refine hcomma.trans ?_
      simpa [afterValue, isSpace, mapItems] using hrest

theorem run_layoutMembers {ms : List (String × Value φ)} {ws : List Char} (hws : ∀ c ∈ ws, isSpace c = true)
    (ih : ∀ m ∈ ms, ∀ done, ∃ r, run codec ⟨.object done m.1 :: fs, .value⟩ (layout codec l n m.2) = some r ∧
      Settles codec r (.object done m.1 :: fs) (m.2.mapFloats codec.again)) (hne : ms ≠ []) (first : Bool)
    (done : List (String × Value φ)) :
    run codec ⟨fs, .name first done⟩ (layoutMembers codec l n ms ++ (ws ++ ['}'])) =
      some ⟨fs, .after (.object (done.reverse ++ mapMembers codec.again ms))⟩ := by
  induction ms generalizing first done with
  | nil => exact absurd rfl hne
  | cons m ms ihm =>
    obtain ⟨k, v⟩ := m
    obtain ⟨r, hr, hs⟩ := ih (k, v) List.mem_cons_self done
    obtain ⟨blank, hcolon, hblank⟩ := l.colonBlank
    have hmember : ∀ cs, run codec ⟨fs, .name first done⟩
        (l.newline n ++ (printString k ++ (l.colon ++ (layout codec l n v ++ cs)))) = run codec r cs := by
      intro cs
      rw [run_space (skipsSpace_name _ _ _) (l.blank n), run_append_of_eq_some (run_printString_name fs first done k),
        hcolon, List.cons_append, run_cons]
      have hstep : step codec ⟨fs, .colon done k⟩ ':' = some ⟨.object done k :: fs, .value⟩ := by simp [step, isSpace]
      rw [hstep, Option.bind_some, run_space (skipsSpace_value _) hblank, run_append_of_eq_some hr]
    cases ms with
    | nil =>
      rw [layoutMembers]
      simp only [List.append_assoc]
      rw [hmember, hs.run_space hws (.inr (.inr rfl))]
      simp [afterValue, isSpace, mapMembers]
    | cons m ms =>
      have hrest := ihm (fun m hm => ih m (List.mem_cons_of_mem _ hm)) (List.cons_ne_nil m ms) false
        ((k, v.mapFloats codec.again) :: done)
      have hnone : ∀ c ∈ ([] : List Char), isSpace c = true := by simp
      have hcomma := hs.run_space hnone (.inl rfl) (layoutMembers codec l n (m :: ms) ++ (ws ++ ['}']))
      rw [layoutMembers]
      simp only [List.append_assoc, List.cons_append]
      rw [hmember]
      refine hcomma.trans ?_
      simpa [afterValue, isSpace, mapMembers] using hrest

/-- Before the first item, a text that starts with one is read as anywhere. -/
theorem run_firstItem {v : Value φ} (hv : ∀ x ∈ v.floats, codec.Writes x) (vs : List (Value φ)) (cs : List Char) :
    run codec ⟨fs, .firstItem⟩ (layoutItems codec l n (v :: vs) ++ cs) =
      run codec ⟨fs, .value⟩ (layoutItems codec l n (v :: vs) ++ cs) := by
  obtain ⟨c, ds, hc, hsp, hcl⟩ := layout_head l n hv
  obtain ⟨rest, hrest⟩ : ∃ rest, layoutItems codec l n (v :: vs) ++ cs = l.newline n ++ c :: rest := by
    cases vs with
    | nil => exact ⟨ds ++ cs, by simp [layoutItems, hc]⟩
    | cons w vs => exact ⟨ds ++ ',' :: layoutItems codec l n (w :: vs) ++ cs, by simp [layoutItems, hc]⟩
  have hfirst : step codec ⟨fs, .firstItem⟩ c = step codec ⟨fs, .value⟩ c := by
    simp [step, hsp, hcl]
  rw [hrest, run_space (skipsSpace_firstItem fs) (l.blank n), run_space (skipsSpace_value fs) (l.blank n), run_cons,
    run_cons, hfirst]

end Containers

theorem itemsDepth_le_iff {vs : List (Value φ)} {n : Nat} : itemsDepth vs ≤ n ↔ ∀ v ∈ vs, v.depth ≤ n := by
  induction vs with
  | nil => simp [itemsDepth]
  | cons v vs ih => rw [itemsDepth, max_le_iff, ih, List.forall_mem_cons]

theorem membersDepth_le_iff {ms : List (String × Value φ)} {n : Nat} :
    membersDepth ms ≤ n ↔ ∀ m ∈ ms, m.2.depth ≤ n := by
  induction ms with
  | nil => simp [membersDepth]
  | cons m ms ih =>
    obtain ⟨k, v⟩ := m
    rw [membersDepth, max_le_iff, ih, List.forall_mem_cons]

theorem mapItems_eq_map (f : φ → φ) (vs : List (Value φ)) : mapItems f vs = vs.map fun v => v.mapFloats f := by
  induction vs with
  | nil => rfl
  | cons v vs ih => rw [mapItems, ih, List.map_cons]

theorem mapMembers_eq_map (f : φ → φ) (ms : List (String × Value φ)) :
    mapMembers f ms = ms.map fun m => (m.1, m.2.mapFloats f) := by
  induction ms with
  | nil => rfl
  | cons m ms ih => rw [mapMembers, ih, List.map_cons]

mutual

/-- A value is the same with its floats mapped exactly where each float is. -/
theorem mapFloats_eq_self_iff (f : φ → φ) : (v : Value φ) → (v.mapFloats f = v ↔ ∀ x ∈ v.floats, f x = x)
  | .null | .bool _ | .string _ | .number (.pos _) | .number (.neg _) | .number (.float _) => by
    simp [Value.mapFloats, Value.floats]
  | .array vs => by rw [Value.mapFloats, Value.array.injEq, mapItems_eq_self_iff f vs, Value.floats]
  | .object ms => by rw [Value.mapFloats, Value.object.injEq, mapMembers_eq_self_iff f ms, Value.floats]

theorem mapItems_eq_self_iff (f : φ → φ) :
    (vs : List (Value φ)) → (mapItems f vs = vs ↔ ∀ x ∈ itemsFloats vs, f x = x)
  | [] => by simp [mapItems, itemsFloats]
  | v :: vs => by
    rw [mapItems, List.cons.injEq, mapFloats_eq_self_iff f v, mapItems_eq_self_iff f vs, itemsFloats,
      List.forall_mem_append]

theorem mapMembers_eq_self_iff (f : φ → φ) :
    (ms : List (String × Value φ)) → (mapMembers f ms = ms ↔ ∀ x ∈ membersFloats ms, f x = x)
  | [] => by simp [mapMembers, membersFloats]
  | (k, v) :: ms => by
    rw [mapMembers, List.cons.injEq, Prod.mk.injEq, mapFloats_eq_self_iff f v, mapMembers_eq_self_iff f ms,
      membersFloats, List.forall_mem_append]
    simp only [true_and]

end

theorem mem_itemsFloats {vs : List (Value φ)} {x : φ} : x ∈ itemsFloats vs ↔ ∃ v ∈ vs, x ∈ v.floats := by
  induction vs with
  | nil => simp [itemsFloats]
  | cons v vs ih => simp [itemsFloats, ih]

theorem mem_membersFloats {ms : List (String × Value φ)} {x : φ} :
    x ∈ membersFloats ms ↔ ∃ m ∈ ms, x ∈ m.2.floats := by
  induction ms with
  | nil => simp [membersFloats]
  | cons m ms ih =>
    obtain ⟨k, v⟩ := m
    simp [membersFloats, ih]

/-- The text of a value leads to a state that settles on it.  The induction is on how deep the value nests, which is
what the stack has room for. -/
theorem run_layout (l : Layout) (n d : Nat) (v : Value φ) (fs : List (Frame φ)) (hv : ∀ x ∈ v.floats, codec.Writes x)
    (hdepth : v.depth ≤ d) (hd : d + fs.length < depthLimit) :
    ∃ r, run codec ⟨fs, .value⟩ (layout codec l n v) = some r ∧ Settles codec r fs (v.mapFloats codec.again) := by
  induction d generalizing n v fs with
  | zero =>
    cases v with
    | null => exact ⟨_, rfl, settles_word fs .null⟩
    | bool b => cases b <;> exact ⟨_, rfl, settles_word fs _⟩
    | number k => exact run_layoutNumber l n fs hv
    | string s => exact ⟨_, run_printString fs s, settles_after fs _⟩
    | array items => exact absurd hdepth (by simp [Value.depth])
    | object members => exact absurd hdepth (by simp [Value.depth])
  | succ d ih =>
    have hopen : fs.length + 1 < depthLimit := by omega
    cases v with
    | null => exact ⟨_, rfl, settles_word fs .null⟩
    | bool b => cases b <;> exact ⟨_, rfl, settles_word fs _⟩
    | number k => exact run_layoutNumber l n fs hv
    | string s => exact ⟨_, run_printString fs s, settles_after fs _⟩
    | array items =>
      refine ⟨⟨fs, .after (.array (mapItems codec.again items))⟩, ?_, settles_after fs _⟩
      rw [Value.floats] at hv
      rw [Value.depth] at hdepth
      have hbracket : step codec ⟨fs, .value⟩ '[' = some ⟨.array [] :: fs, .firstItem⟩ := by
        simp [step, startValue, isSpace, hopen]
      cases items with
      | nil => simp [layout, step, startValue, isSpace, hopen, mapItems]
      | cons v vs =>
        have hitems : ∀ w ∈ v :: vs, ∀ done, ∃ r, run codec ⟨.array done :: fs, .value⟩ (layout codec l (n + 1) w) =
            some r ∧ Settles codec r (.array done :: fs) (w.mapFloats codec.again) := by
          intro w hw done
          have hle : w.depth ≤ d := itemsDepth_le_iff.mp (Nat.le_of_succ_le_succ hdepth) w hw
          refine ih (n + 1) w (.array done :: fs) (fun x hx => hv x (mem_itemsFloats.mpr ⟨w, hw, hx⟩)) hle ?_
          rw [List.length_cons]
          omega
        have hrun := run_layoutItems codec l (n + 1) fs (l.blank n) hitems (List.cons_ne_nil v vs) []
        have hfirst := run_firstItem codec l (n + 1) (.array [] :: fs)
          (fun x hx => hv x (mem_itemsFloats.mpr ⟨v, List.mem_cons_self, hx⟩)) vs (l.newline n ++ [']'])
        rw [layout, List.cons_append, run_cons, hbracket, Option.bind_some, hfirst]
        exact hrun
    | object members =>
      refine ⟨⟨fs, .after (.object (mapMembers codec.again members))⟩, ?_, settles_after fs _⟩
      rw [Value.floats] at hv
      rw [Value.depth] at hdepth
      have hbrace : step codec ⟨fs, .value⟩ '{' = some ⟨fs, .name true []⟩ := by
        simp [step, startValue, isSpace, hopen]
      cases members with
      | nil => simp [layout, step, startValue, isSpace, hopen, mapMembers]
      | cons m ms =>
        have hmembers : ∀ m' ∈ m :: ms, ∀ done, ∃ r,
            run codec ⟨.object done m'.1 :: fs, .value⟩ (layout codec l (n + 1) m'.2) = some r ∧
              Settles codec r (.object done m'.1 :: fs) (m'.2.mapFloats codec.again) := by
          intro m' hm done
          have hle : m'.2.depth ≤ d := membersDepth_le_iff.mp (Nat.le_of_succ_le_succ hdepth) m' hm
          refine ih (n + 1) m'.2 (.object done m'.1 :: fs) (fun x hx => hv x (mem_membersFloats.mpr ⟨m', hm, hx⟩)) hle ?_
          rw [List.length_cons]
          omega
        have hrun := run_layoutMembers codec l (n + 1) fs (l.blank n) hmembers (List.cons_ne_nil m ms) true []
        rw [layout, List.cons_append, run_cons, hbrace, Option.bind_some]
        exact hrun

/-- The text of a value, laid out either way, reads back as the value, with each float as its text reads. -/
theorem read_layout (l : Layout) (n : Nat) {v : Value φ} (hv : ∀ x ∈ v.floats, codec.Writes x)
    (hd : v.depth < depthLimit) : read codec (layout codec l n v) = some (v.mapFloats codec.again) := by
  obtain ⟨r, hr, hs⟩ := run_layout l n v.depth v [] hv le_rfl (by simpa using hd)
  simp [read, hr, hs.2 rfl]

/-- What has no floats, and nests so deep. -/
theorem floats_of_fits (codec : FloatCodec φ) {n : Nat} {v : Value φ} (h : Fits n v) :
    v.floats = [] ∧ v.depth ≤ n ∧ v.mapFloats codec.again = v := by
  induction n generalizing v with
  | zero =>
    cases v with
    | number k => cases k <;> first | exact ⟨rfl, Nat.le_refl 0, rfl⟩ | exact absurd rfl (h _)
    | array items => exact h.elim
    | object members => exact h.elim
    | _ => exact ⟨rfl, Nat.le_refl 0, rfl⟩
  | succ n ih =>
    cases v with
    | number k => cases k <;> first | exact ⟨rfl, Nat.zero_le _, rfl⟩ | exact absurd rfl (h _)
    | array items =>
      refine ⟨List.eq_nil_iff_forall_not_mem.mpr fun x hx => ?_, ?_, ?_⟩
      · rw [Value.floats] at hx
        obtain ⟨v, hv, hx⟩ := mem_itemsFloats.mp hx
        rw [(ih (h v hv)).1] at hx
        cases hx
      · rw [Value.depth]
        exact Nat.succ_le_succ (itemsDepth_le_iff.mpr fun v hv => (ih (h v hv)).2.1)
      · rw [Value.mapFloats, mapItems_eq_map, List.map_congr_left fun v hv => (ih (h v hv)).2.2, List.map_id']
    | object members =>
      refine ⟨List.eq_nil_iff_forall_not_mem.mpr fun x hx => ?_, ?_, ?_⟩
      · rw [Value.floats] at hx
        obtain ⟨m, hm, hx⟩ := mem_membersFloats.mp hx
        rw [(ih (h m hm)).1] at hx
        cases hx
      · rw [Value.depth]
        exact Nat.succ_le_succ (membersDepth_le_iff.mpr fun m hm => (ih (h m hm)).2.1)
      · have hsame : ∀ m ∈ members, (m.1, m.2.mapFloats codec.again) = m := fun m hm => by rw [(ih (h m hm)).2.2]
        rw [Value.mapFloats, mapMembers_eq_map, List.map_congr_left hsame, List.map_id']
    | _ => exact ⟨rfl, Nat.zero_le _, rfl⟩

/-- The text of a value without floats, nested within the limit, reads back as the value. -/
theorem read_print {n : Nat} {v : Value φ} (hv : Fits n v) (hn : n < depthLimit) :
    read codec (print codec v) = some v := by
  obtain ⟨hfloats, hdepth, hmap⟩ := floats_of_fits codec hv
  rw [← layout_compact codec 0, read_layout, hmap]
  · rw [hfloats]
    intro x hx
    cases hx
  · omega

/-! ### What a text can nest -/

/-- How deep what a frame holds nests. -/
def Frame.depth : Frame φ → Nat
  | .array done => itemsDepth done
  | .object done _ => membersDepth done

/-- What the open containers hold nests within the limit. -/
def FramesShallow : List (Frame φ) → Prop
  | [] => True
  | f :: fs => f.depth + (fs.length + 1) < depthLimit ∧ FramesShallow fs

/-- What the reader has at hand nests within the limit, inside `k` containers. -/
def Expect.Shallow (k : Nat) : Expect φ → Prop
  | .name _ done | .colon done _ | .string (some done) _ _ => membersDepth done + (k + 1) < depthLimit
  | .after v | .word _ v => v.depth + k < depthLimit
  | _ => True

structure Reader.Shallow (r : Reader φ) : Prop where
  frames : FramesShallow r.frames
  expect : r.expect.Shallow r.frames.length

theorem FramesShallow.length_lt {fs : List (Frame φ)} (h : FramesShallow fs) : fs.length < depthLimit := by
  cases fs with
  | nil => exact Nat.zero_lt_succ 127
  | cons f fs =>
    have := h.1
    rw [List.length_cons]
    omega

theorem itemsDepth_reverse (vs : List (Value φ)) : itemsDepth vs.reverse = itemsDepth vs := by
  apply le_antisymm <;> rw [itemsDepth_le_iff]
  · exact fun v hv => itemsDepth_le_iff.mp le_rfl v (List.mem_reverse.mp hv)
  · exact fun v hv => itemsDepth_le_iff.mp le_rfl v (List.mem_reverse.mpr hv)

theorem membersDepth_reverse (ms : List (String × Value φ)) : membersDepth ms.reverse = membersDepth ms := by
  apply le_antisymm <;> rw [membersDepth_le_iff]
  · exact fun m hm => membersDepth_le_iff.mp le_rfl m (List.mem_reverse.mp hm)
  · exact fun m hm => membersDepth_le_iff.mp le_rfl m (List.mem_reverse.mpr hm)

theorem shallow_startValue {fs : List (Frame φ)} (hfs : FramesShallow fs) {c : Char} {r : Reader φ}
    (h : startValue fs c = some r) : r.Shallow := by
  have hword : ∀ v : Value φ, v.depth = 0 → v.depth + fs.length < depthLimit := by
    intro v hv
    have := hfs.length_lt
    omega
  unfold startValue at h
  split_ifs at h with _ _ hopen _ hopen <;> cases h
  · exact ⟨hfs, trivial⟩
  · exact ⟨⟨by simpa [Frame.depth, itemsDepth] using hopen, hfs⟩, trivial⟩
  · exact ⟨hfs, by simpa [Expect.Shallow, membersDepth] using hopen⟩
  · exact ⟨hfs, hword _ rfl⟩
  · exact ⟨hfs, hword _ rfl⟩
  · exact ⟨hfs, hword _ rfl⟩
  · exact ⟨hfs, trivial⟩
  · exact ⟨hfs, trivial⟩
  · exact ⟨hfs, trivial⟩

theorem shallow_afterValue {fs : List (Frame φ)} (hfs : FramesShallow fs) {v : Value φ}
    (hv : v.depth + fs.length < depthLimit) {c : Char} {r : Reader φ} (h : afterValue fs v c = some r) :
    r.Shallow := by
  unfold afterValue at h
  by_cases hsp : isSpace c = true
  · rw [if_pos hsp] at h
    cases h
    exact ⟨hfs, hv⟩
  · rw [if_neg hsp] at h
    cases fs with
    | nil => cases h
    | cons f fs =>
      obtain ⟨hdone, hfs⟩ := hfs
      rw [List.length_cons] at hv
      cases f with
      | array done =>
        rw [Frame.depth] at hdone
        have hall : itemsDepth (v :: done) + (fs.length + 1) < depthLimit := by
          rw [itemsDepth]
          omega
        dsimp only at h
        split_ifs at h <;> cases h
        · exact ⟨⟨hall, hfs⟩, trivial⟩
        · refine ⟨hfs, ?_⟩
          rw [Expect.Shallow, Value.depth, itemsDepth_reverse]
          dsimp only
          omega
      | object done name =>
        rw [Frame.depth] at hdone
        have hall : membersDepth ((name, v) :: done) + (fs.length + 1) < depthLimit := by
          rw [membersDepth]
          omega
        dsimp only at h
        split_ifs at h <;> cases h
        · exact ⟨hfs, hall⟩
        · refine ⟨hfs, ?_⟩
          rw [Expect.Shallow, Value.depth, membersDepth_reverse]
          dsimp only
          omega

theorem shallow_step {r r' : Reader φ} (hr : r.Shallow) {c : Char} (h : step codec r c = some r') : r'.Shallow := by
  obtain ⟨fs, e⟩ := r
  obtain ⟨hfs, he⟩ := hr
  have hzero : ∀ n : Number φ, (Value.number n).depth + fs.length < depthLimit := by
    intro n
    have := hfs.length_lt
    simpa [Value.depth] using this
  unfold step at h
  cases e with
  | value =>
    dsimp only at h
    split_ifs at h
    · cases h
      exact ⟨hfs, he⟩
    · exact shallow_startValue hfs h
  | firstItem =>
    dsimp only at h
    split_ifs at h
    · cases h
      exact ⟨hfs, he⟩
    · cases h
      cases fs with
      | nil => exact ⟨trivial, by simp [Expect.Shallow, Value.depth, itemsDepth, depthLimit]⟩
      | cons f fs =>
        refine ⟨hfs.2, ?_⟩
        have := hfs.length_lt
        simpa [Expect.Shallow, Value.depth, itemsDepth, Nat.add_comm] using this
    · exact shallow_startValue hfs h
  | name first done =>
    dsimp only at h
    have he : membersDepth done + (fs.length + 1) < depthLimit := he
    split_ifs at h
    · cases h
      exact ⟨hfs, he⟩
    · cases h
      exact ⟨hfs, he⟩
    · cases h
      refine ⟨hfs, ?_⟩
      simp only [Expect.Shallow, Value.depth, membersDepth]
      omega
  | colon done name =>
    dsimp only at h
    split_ifs at h
    · cases h
      exact ⟨hfs, he⟩
    · cases h
      exact ⟨⟨he, hfs⟩, trivial⟩
  | after v => exact shallow_afterValue hfs he h
  | string target text e =>
    have hstring : ∀ text e, Reader.Shallow ⟨fs, .string target text e⟩ := by
      intro text e
      cases target with
      | none => exact ⟨hfs, trivial⟩
      | some done => exact ⟨hfs, he⟩
    cases e with
    | plain =>
      dsimp only at h
      split_ifs at h
      · cases target with
        | none =>
          cases h
          exact ⟨hfs, by have := hfs.length_lt; simpa [Expect.Shallow, Value.depth] using this⟩
        | some done =>
          cases h
          exact ⟨hfs, he⟩
      · obtain ⟨p, -, rfl⟩ := Option.map_eq_some_iff.mp h
        exact hstring _ _
    | _ =>
      obtain ⟨p, -, rfl⟩ := Option.map_eq_some_iff.mp h
      exact hstring _ _
  | word rest v =>
    cases rest with
    | nil => exact shallow_afterValue hfs he h
    | cons x xs =>
      dsimp only at h
      split_ifs at h
      cases h
      exact ⟨hfs, he⟩
  | number phase text =>
    dsimp only at h
    split at h
    · cases h
      exact ⟨hfs, trivial⟩
    · obtain ⟨n, -, hn⟩ := Option.bind_eq_some_iff.mp h
      exact shallow_afterValue hfs (hzero n) hn

theorem shallow_run {cs : List Char} {r r' : Reader φ} (hr : r.Shallow) (h : run codec r cs = some r') :
    r'.Shallow := by
  induction cs generalizing r with
  | nil =>
    cases h
    exact hr
  | cons c cs ih =>
    rw [run_cons] at h
    obtain ⟨r₁, hr₁, h⟩ := Option.bind_eq_some_iff.mp h
    exact ih (shallow_step hr hr₁) h

/-- A value that is read nests within the limit. -/
theorem depth_lt_of_read {cs : List Char} {v : Value φ} (h : read codec cs = some v) : v.depth < depthLimit := by
  obtain ⟨r, hr, hf⟩ := Option.bind_eq_some_iff.mp h
  have hstart : (⟨[], .value⟩ : Reader φ).Shallow := ⟨trivial, trivial⟩
  obtain ⟨hfs, he⟩ := shallow_run hstart hr
  obtain ⟨fs, e⟩ := r
  unfold finish at hf
  split at hf
  · next heq =>
    cases heq
    cases hf
    exact he
  · next heq =>
    cases heq
    cases hf
    exact he
  · next heq =>
    cases heq
    obtain ⟨n, -, rfl⟩ := Option.map_eq_some_iff.mp hf
    exact Nat.zero_lt_succ 127
  · cases hf

end JsonText
