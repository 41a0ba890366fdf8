import Mcpdef.Lib.JsonText

/-!
# Reading JSON text back

What the reader makes of a text: strings and numbers read back as they were; a text it accepted is not accepted with
another value after it (`read_append_eq_none`); and a text is only accepted from its first character other than
whitespace on (`read_eq_none_of_spaces`).

A number's last character is not known to be its last until the next one comes, so what a value's text leads to is a
state that `Settles` on the value: it goes on, at a character that can follow a value, as the state after the value
does.
-/

namespace JsonText

variable {φ : Type} {codec : FloatCodec φ}

/-! ### Strings -/

private theorem hexValue_digitChar {n : Nat} (h : n < 16) : hexValue n.digitChar = some n := by
  interval_cases n <;> decide

private theorem char_eq_of_toNat {c : Char} {n : Nat} (h : c.toNat = n) : c = Char.ofNat n := by
  rw [← h, Char.ofNat_toNat]

/-- The reader takes an escaped character back. -/
private theorem run_escape (fs : List (Frame φ)) (target : Option (List (String × Value φ))) (text : List Char)
    (c : Char) : run codec ⟨fs, .string target text .plain⟩ (escape c) = some ⟨fs, .string target (c :: text) .plain⟩ := by
  unfold escape
  split_ifs with h1 h2 h3 h4 h5 h6 h7 h8
  · subst h1; simp [step, stringNext]
  · subst h2; simp [step, stringNext]
  · subst h3; simp [step, stringNext]
  · subst h4; simp [step, stringNext]
  · subst h5; simp [step, stringNext]
  · rw [char_eq_of_toNat h6]; simp [step, stringNext]
  · rw [char_eq_of_toNat h7]; simp [step, stringNext]
  · have hd := hexValue_digitChar (show c.toNat / 16 < 16 by omega)
    have hm := hexValue_digitChar (show c.toNat % 16 < 16 by omega)
    have h0 : hexValue '0' = some 0 := by decide
    have hc : c.toNat / 16 * 16 + c.toNat % 16 = c.toNat := by omega
    have hh : ¬ 0xd800 ≤ c.toNat := by omega
    have hl : ¬ 0xdc00 ≤ c.toNat := by omega
    simp [step, stringNext, unit, hd, hm, h0, hc, hh, hl]
  · simp [step, stringNext, h1, h2, h8]

private theorem run_escapes (fs : List (Frame φ)) (target : Option (List (String × Value φ))) (cs text : List Char) :
    run codec ⟨fs, .string target text .plain⟩ (cs.flatMap escape) =
      some ⟨fs, .string target (cs.reverse ++ text) .plain⟩ := by
  induction cs generalizing text with
  | nil => rfl
  | cons c cs ih =>
    rw [List.flatMap_cons, run_append_of_eq_some (run_escape fs target text c), ih]
    simp

/-- A string literal in the place of a value. -/
theorem run_printString (fs : List (Frame φ)) (s : String) :
    run codec ⟨fs, .value⟩ (printString s) = some ⟨fs, .after (.string s)⟩ := by
  simp [printString, step, startValue, isSpace, run_append, run_escapes]

/-- A string literal in the place of a member's name. -/
theorem run_printString_name (fs : List (Frame φ)) (first : Bool) (done : List (String × Value φ)) (s : String) :
    run codec ⟨fs, .name first done⟩ (printString s) = some ⟨fs, .colon done s⟩ := by
  simp [printString, step, isSpace, run_append, run_escapes]

/-! ### Numbers -/

private theorem isDigit_digitChar_of_lt {d : Nat} (h : d < 10) : d.digitChar.isDigit = true := by
  simp [Nat.isDigit_digitChar, h]

private theorem run_digits (codec : FloatCodec φ) {r : Reader φ} {fs : List (Frame φ)} {pre : List Char}
    (hr : ∀ d, 0 < d → d < 10 → step codec r d.digitChar = some ⟨fs, .number .int (d.digitChar :: pre)⟩)
    (n : Nat) (hn : 0 < n) :
    run codec r (Nat.toDigits 10 n) = some ⟨fs, .number .int ((Nat.toDigits 10 n).reverse ++ pre)⟩ := by
  induction n using Nat.strongRecOn with
  | ind n ih =>
    by_cases h : n < 10
    · simp [Nat.toDigits_of_lt_base h, hr n hn h]
    · have hi : NumberPhase.int.next (n % 10).digitChar = some .int := by
        simp [NumberPhase.next, isDigit_digitChar_of_lt (Nat.mod_lt n (by omega))]
      rw [Nat.toDigits_of_base_le (by omega) (by omega),
        run_append_of_eq_some (ih (n / 10) (by omega) (by omega))]
      simp [step, hi]

private theorem step_value_digit (fs : List (Frame φ)) {d : Nat} (h0 : 0 < d) (hd : d < 10) :
    step codec ⟨fs, .value⟩ d.digitChar = some ⟨fs, .number .int [d.digitChar]⟩ := by
  interval_cases d <;> rfl

private theorem step_minus_digit (fs : List (Frame φ)) {d : Nat} (h0 : 0 < d) (hd : d < 10) :
    step codec ⟨fs, .number .minus ['-']⟩ d.digitChar = some ⟨fs, .number .int [d.digitChar, '-']⟩ := by
  interval_cases d <;> rfl

private theorem integer_toDigits (codec : FloatCodec φ) {n : Nat} (h : n < 2 ^ 64) :
    integer codec (Nat.toDigits 10 n) = some (.pos (UInt64.ofNat n)) := by
  unfold integer
  split
  · next ds hds =>
    have hm : '-' ∈ Nat.toDigits 10 n := by rw [hds]; exact List.mem_cons_self
    have := Nat.isDigit_of_mem_toDigits (by decide) (by decide) hm
    simp at this
  · rw [Nat.ofDigitChars_ten_toDigits, if_pos h]

private theorem integer_neg_toDigits (k : Fin (2 ^ 63)) :
    integer codec ('-' :: Nat.toDigits 10 (k.val + 1)) = some (.neg k) := by
  simp [integer, Nat.ofDigitChars_ten_toDigits]

/-! ### Values -/

/-- The state `r`, reached by a value's text, goes on as the state after the value does. -/
def Settles (codec : FloatCodec φ) (r : Reader φ) (fs : List (Frame φ)) (v : Value φ) : Prop :=
  (∀ c, isSpace c = true ∨ c = ',' ∨ c = ']' ∨ c = '}' → step codec r c = afterValue fs v c) ∧
    (fs = [] → finish codec r = some v)

theorem settles_after (fs : List (Frame φ)) (v : Value φ) : Settles codec ⟨fs, .after v⟩ fs v :=
  ⟨fun _ _ => rfl, fun h => by rw [h]; rfl⟩

theorem settles_word (fs : List (Frame φ)) (v : Value φ) : Settles codec ⟨fs, .word [] v⟩ fs v :=
  ⟨fun _ _ => rfl, fun h => by rw [h]; rfl⟩

/-- A number that may end is over at what follows a value. -/
theorem settles_number (fs : List (Frame φ)) {p : NumberPhase} (hp : p = .zero ∨ p = .int ∨ p = .frac ∨ p = .expDigits)
    {text : List Char} {n : Number φ} (h : classify codec p text = some n) :
    Settles codec ⟨fs, .number p text⟩ fs (.number n) := by
  constructor
  · intro c hc
    have hn : p.next c = none := by
      have hchar : c = ' ' ∨ c = '\t' ∨ c = '\n' ∨ c = '\r' ∨ c = ',' ∨ c = ']' ∨ c = '}' := by
        simpa [isSpace, or_assoc] using hc
      rcases hp with rfl | rfl | rfl | rfl <;> rcases hchar with rfl | rfl | rfl | rfl | rfl | rfl | rfl <;> rfl
    simp [step, hn, h]
  · rintro rfl
    simp [finish, h]

/-- An integer's text. -/
theorem run_printInteger (fs : List (Frame φ)) {n : Number φ} (hn : ∀ x, n ≠ .float x) :
    ∃ r, run codec ⟨fs, .value⟩ (printNumber codec n) = some r ∧ Settles codec r fs (.number n) := by
  cases n with
  | pos n =>
    have hlt : n.toNat < 2 ^ 64 := n.toNat_lt
    have hi := integer_toDigits codec hlt
    rw [UInt64.ofNat_toNat] at hi
    rcases Nat.eq_zero_or_pos n.toNat with h0 | h0
    · refine ⟨⟨fs, .number .zero ['0']⟩, ?_, settles_number fs (.inl rfl) ?_⟩
      · rw [printNumber, h0]; rfl
      · rw [h0] at hi; exact hi
    · refine ⟨_, run_digits codec (fun d h hd => step_value_digit fs h hd) _ h0, settles_number fs (.inr (.inl rfl)) ?_⟩
      simpa [classify] using hi
  | neg k =>
    refine ⟨⟨fs, .number .int ((Nat.toDigits 10 (k.val + 1)).reverse ++ ['-'])⟩, ?_, settles_number fs (.inr (.inl rfl)) ?_⟩
    · have := run_digits codec (fun d h hd => step_minus_digit fs h hd) (k.val + 1) (by omega)
      simpa [printNumber, step, startValue, isSpace] using this
    · simpa [classify] using integer_neg_toDigits k
  | float x => exact absurd rfl (hn x)

/-! ### One line -/

private theorem le_of_mem_escape {c d : Char} (h : d ∈ escape c) : 0x20 ≤ d.toNat := by
  have hdigit : ∀ n, n < 16 → 0x20 ≤ n.digitChar.toNat := by
    intro n hn
    interval_cases n <;> decide
  unfold escape at h
  split_ifs at h <;> simp only [List.mem_cons, List.not_mem_nil, or_false] at h
  all_goals try rcases h with rfl | rfl <;> decide
  · rcases h with rfl | rfl | rfl | rfl | rfl | rfl
    any_goals decide
    · exact hdigit _ (by omega)
    · exact hdigit _ (by omega)
  · subst h
    omega

theorem le_of_mem_printString {s : String} {c : Char} (h : c ∈ printString s) : 0x20 ≤ c.toNat := by
  simp only [printString, List.cons_append, List.mem_cons, List.mem_append, List.mem_flatMap, List.not_mem_nil,
    or_false] at h
  rcases h with rfl | ⟨d, -, hd⟩ | rfl
  · decide
  · exact le_of_mem_escape hd
  · decide

theorem le_of_mem_word {cs : List Char} (h : (cs.all fun c => 0x20 ≤ c.toNat) = true) :
    ∀ c ∈ cs, 0x20 ≤ c.toNat := by
  simpa using h

theorem le_of_isDigit {c : Char} (h : c.isDigit = true) : 0x20 ≤ c.toNat := by
  simp only [Char.isDigit, Bool.and_eq_true, decide_eq_true_eq, ge_iff_le, UInt32.le_iff_toNat_le] at h
  have h48 : '0'.val.toNat = 48 := rfl
  rw [h48, Char.toNat_val] at h
  omega

theorem le_of_mem_toDigits {n : Nat} {c : Char} (h : c ∈ Nat.toDigits 10 n) : 0x20 ≤ c.toNat :=
  le_of_isDigit (Nat.isDigit_of_mem_toDigits (by decide) (by decide) h)

theorem le_of_mem_printItems {vs : List (Value φ)} (ih : ∀ v ∈ vs, ∀ c ∈ print codec v, 0x20 ≤ c.toNat) :
    ∀ c ∈ printItems codec vs, 0x20 ≤ c.toNat := by
  induction vs with
  | nil => simp [printItems]
  | cons v vs ihv =>
    have hrest := ihv fun v hv => ih v (List.mem_cons_of_mem _ hv)
    intro c hc
    cases vs with
    | nil => exact ih v List.mem_cons_self c hc
    | cons w vs =>
      simp only [printItems, List.mem_append, List.mem_cons] at hc
      rcases hc with hc | rfl | hc
      · exact ih v List.mem_cons_self c hc
      · decide
      · exact hrest c hc

theorem le_of_mem_printMembers {ms : List (String × Value φ)}
    (ih : ∀ m ∈ ms, ∀ c ∈ print codec m.2, 0x20 ≤ c.toNat) : ∀ c ∈ printMembers codec ms, 0x20 ≤ c.toNat := by
  induction ms with
  | nil => simp [printMembers]
  | cons m ms ihm =>
    have hrest := ihm fun m hm => ih m (List.mem_cons_of_mem _ hm)
    obtain ⟨n, v⟩ := m
    intro c hc
    cases ms with
    | nil =>
      simp only [printMembers, List.mem_append, List.mem_cons] at hc
      rcases hc with hc | rfl | hc
      · exact le_of_mem_printString hc
      · decide
      · exact ih (n, v) List.mem_cons_self c hc
    | cons m ms =>
      simp only [printMembers, List.mem_append, List.mem_cons] at hc
      rcases hc with (hc | rfl | hc) | rfl | hc
      · exact le_of_mem_printString hc
      · decide
      · exact ih (n, v) List.mem_cons_self c hc
      · decide
      · exact hrest c hc

/-- The text of a value without floats holds no control character, so it is one line. -/
theorem le_of_mem_print (n : Nat) (v : Value φ) (hv : Fits n v) : ∀ c ∈ print codec v, 0x20 ≤ c.toNat := by
  have hnumber : ∀ k : Number φ, (∀ x, k ≠ .float x) → ∀ c ∈ printNumber codec k, 0x20 ≤ c.toNat := by
    intro k hk c hc
    cases k with
    | pos k => exact le_of_mem_toDigits hc
    | neg k =>
      rcases List.mem_cons.mp hc with rfl | hc
      · decide
      · exact le_of_mem_toDigits hc
    | float x => exact absurd rfl (hk x)
  induction n generalizing v with
  | zero =>
    intro c hc
    cases v with
    | null => exact le_of_mem_word rfl c hc
    | bool b => cases b <;> exact le_of_mem_word rfl c hc
    | number k => exact hnumber k hv c hc
    | string s => exact le_of_mem_printString hc
    | array items => exact hv.elim
    | object members => exact hv.elim
  | succ n ih =>
    intro c hc
    cases v with
    | null => exact le_of_mem_word rfl c hc
    | bool b => cases b <;> exact le_of_mem_word rfl c hc
    | number k => exact hnumber k hv c hc
    | string s => exact le_of_mem_printString hc
    | array items =>
      simp only [print, List.cons_append, List.mem_cons, List.mem_append, List.not_mem_nil, or_false] at hc
      rcases hc with rfl | hc | rfl
      · decide
      · exact le_of_mem_printItems (fun v hm => ih v (hv v hm)) c hc
      · decide
    | object members =>
      simp only [print, List.cons_append, List.mem_cons, List.mem_append, List.not_mem_nil, or_false] at hc
      rcases hc with rfl | hc | rfl
      · decide
      · exact le_of_mem_printMembers (fun m hm => ih m.2 (hv m hm)) c hc
      · decide

/-- No value's text holds a control character, where no float's does. -/
theorem le_of_mem_print_of_floats (hfloats : ∀ x, ∀ c ∈ codec.write x, 0x20 ≤ c.toNat) :
    (v : Value φ) → ∀ c ∈ print codec v, 0x20 ≤ c.toNat
  | .null => le_of_mem_word rfl
  | .bool true => le_of_mem_word rfl
  | .bool false => le_of_mem_word rfl
  | .string s => fun c hc => le_of_mem_printString hc
  | .number (.pos n) => fun c hc => le_of_mem_toDigits hc
  | .number (.neg k) => by
    intro c hc
    rcases List.mem_cons.mp hc with rfl | hc
    · decide
    · exact le_of_mem_toDigits hc
  | .number (.float x) => hfloats x
  | .array items => by
    intro c hc
    have hitems : ∀ c ∈ printItems codec items, 0x20 ≤ c.toNat :=
      le_of_mem_printItems fun v hv => le_of_mem_print_of_floats hfloats v
    simp only [print, List.cons_append, List.mem_cons, List.mem_append, List.not_mem_nil, or_false] at hc
    rcases hc with rfl | hc | rfl
    · decide
    · exact hitems c hc
    · decide
  | .object members => by
    intro c hc
    have hmembers : ∀ c ∈ printMembers codec members, 0x20 ≤ c.toNat :=
      le_of_mem_printMembers fun m hm => le_of_mem_print_of_floats hfloats m.2
    simp only [print, List.cons_append, List.mem_cons, List.mem_append, List.not_mem_nil, or_false] at hc
    rcases hc with rfl | hc | rfl
    · decide
    · exact hmembers c hc
    · decide
termination_by v => sizeOf v
decreasing_by
  · have := List.sizeOf_lt_of_mem hv
    simp only [Value.array.sizeOf_spec]
    omega
  · have hlt := List.sizeOf_lt_of_mem hm
    obtain ⟨n, v⟩ := m
    simp only [Value.object.sizeOf_spec, Prod.mk.sizeOf_spec] at hlt ⊢
    omega

/-! ### Texts that go on -/

private theorem run_spaces {cs : List Char} (h : ∀ c ∈ cs, isSpace c = true) :
    run codec ⟨[], .value⟩ cs = some ⟨[], .value⟩ := by
  induction cs with
  | nil => rfl
  | cons c cs ih =>
    rw [List.forall_mem_cons] at h
    simp [step, h.1, ih h.2]

/-- Whitespace before a text changes nothing. -/
theorem read_spaces_append {cs : List Char} (h : ∀ c ∈ cs, isSpace c = true) (ds : List Char) :
    read codec (cs ++ ds) = read codec ds := by
  rw [read, read, run_append_of_eq_some (run_spaces h)]

/-- Where the first character other than whitespace starts no value, the text is refused. -/
theorem read_spaces_append_cons {cs : List Char} (h : ∀ c ∈ cs, isSpace c = true) {c : Char} (hc : isSpace c = false)
    (hs : startValue (φ := φ) [] c = none) (ds : List Char) : read codec (cs ++ c :: ds) = none := by
  rw [read_spaces_append h, read, run_cons]
  simp [step, hc, hs]

private theorem run_after_eq_none {v : Value φ} {ds : List Char} (h : ∃ c ∈ ds, isSpace c = false) :
    run codec ⟨[], .after v⟩ ds = none := by
  induction ds with
  | nil =>
    obtain ⟨c, hc, -⟩ := h
    cases hc
  | cons d ds ih =>
    by_cases hd : isSpace d = true
    · have hrest : ∃ c ∈ ds, isSpace c = false := by
        obtain ⟨c, hc, hspace⟩ := h
        rcases List.mem_cons.mp hc with rfl | hc
        · rw [hd] at hspace
          cases hspace
        · exact ⟨c, hc, hspace⟩
      simp [run_cons, step, afterValue, hd, ih hrest]
    · simp [run_cons, step, afterValue, hd]

/-- A complete text, other than a number, is refused with anything but whitespace after it. -/
theorem read_append_eq_none {cs : List Char} {v : Value φ} (h : read codec cs = some v) (hv : ∀ n, v ≠ .number n)
    {ds : List Char} (hds : ∃ c ∈ ds, isSpace c = false) : read codec (cs ++ ds) = none := by
  obtain ⟨r, hr, hf⟩ := Option.bind_eq_some_iff.mp h
  cases ds with
  | nil =>
    obtain ⟨c, hc, -⟩ := hds
    cases hc
  | cons d ds =>
    have hstep : step codec r d = afterValue [] v d := by
      obtain ⟨fs, e⟩ := r
      unfold finish at hf
      split at hf
      · next heq =>
        cases heq
        cases hf
        rfl
      · next heq =>
        cases heq
        cases hf
        rfl
      · obtain ⟨n, -, rfl⟩ := Option.map_eq_some_iff.mp hf
        exact absurd rfl (hv n)
      · cases hf
    have hafter : run codec ⟨[], .after v⟩ (d :: ds) = none := run_after_eq_none hds
    have hsame : run codec r (d :: ds) = run codec ⟨[], .after v⟩ (d :: ds) := by
      rw [run_cons, run_cons, hstep]
      rfl
    rw [read, run_append_of_eq_some hr, hsame, hafter]
    rfl

end JsonText
