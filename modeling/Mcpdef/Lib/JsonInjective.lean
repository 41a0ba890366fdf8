import Mcpdef.Lib.JsonRead

/-!
# One text, one value

Two values with one compact text are one value (`print_injective`), since no value's text goes on as another's does:
where two texts that begin with a value's agree, and what follows cannot belong to a number, the values agree.  Floats
must have texts of their own (`FloatCodec.Distinct`).

`perm_of_print_sortMembers` is the same for objects whose members are sorted first: one text, one set of members.
-/

namespace JsonText

variable {φ : Type} {codec : FloatCodec φ}

/-- A character a number's text may hold. -/
def isNumberChar (c : Char) : Bool := c.isDigit || c = '-' || c = '+' || c = '.' || c = 'e' || c = 'E'

/-- Different floats have different texts, and none is the text of an integer. -/
structure FloatCodec.Distinct (codec : FloatCodec φ) : Prop where
  injective : Function.Injective codec.write
  chars : ∀ x, ∀ c ∈ codec.write x, isNumberChar c = true
  fractional : ∀ x, ∃ c ∈ codec.write x, c = '.' ∨ c = 'e' ∨ c = 'E'

/-! ### Strings -/

private theorem hexValue_of_digitChar {n : Nat} (h : n < 16) : hexValue n.digitChar = some n := by
  interval_cases n <;> decide

/-- The character an escape in a literal stands for, and what follows it. -/
private def firstChar : List Char → Option (Char × List Char)
  | '"' :: _ => none
  | '\\' :: '"' :: rest => some ('"', rest)
  | '\\' :: '\\' :: rest => some ('\\', rest)
  | '\\' :: 'n' :: rest => some ('\n', rest)
  | '\\' :: 'r' :: rest => some ('\r', rest)
  | '\\' :: 't' :: rest => some ('\t', rest)
  | '\\' :: 'b' :: rest => some (Char.ofNat 0x08, rest)
  | '\\' :: 'f' :: rest => some (Char.ofNat 0x0c, rest)
  | '\\' :: 'u' :: '0' :: '0' :: a :: b :: rest =>
    (hexValue a).bind fun h => (hexValue b).map fun l => (Char.ofNat (h * 16 + l), rest)
  | c :: rest => some (c, rest)
  | [] => none

private theorem firstChar_escape (c : Char) (rest : List Char) : firstChar (escape c ++ rest) = some (c, rest) := by
  have hof : ∀ {n : Nat}, c.toNat = n → c = Char.ofNat n := by
    intro n h
    rw [← h, Char.ofNat_toNat]
  unfold escape
  split_ifs with h1 h2 h3 h4 h5 h6 h7 h8
  · rw [h1]; rfl
  · rw [h2]; rfl
  · rw [h3]; rfl
  · rw [h4]; rfl
  · rw [h5]; rfl
  · rw [hof h6]; rfl
  · rw [hof h7]; rfl
  · have hhigh := hexValue_of_digitChar (show c.toNat / 16 < 16 by omega)
    have hlow := hexValue_of_digitChar (show c.toNat % 16 < 16 by omega)
    have hsum : c.toNat / 16 * 16 + c.toNat % 16 = c.toNat := by omega
    simp [firstChar, hhigh, hlow, hsum]
  · simp [firstChar, h2]

private theorem escapes_injective {as bs xs ys : List Char}
    (h : as.flatMap escape ++ '"' :: xs = bs.flatMap escape ++ '"' :: ys) : as = bs ∧ xs = ys := by
  have hquote : ∀ zs, firstChar ('"' :: zs) = none := fun _ => rfl
  have hcons : ∀ c (cs zs : List Char), firstChar ((c :: cs).flatMap escape ++ '"' :: zs) =
      some (c, cs.flatMap escape ++ '"' :: zs) := by
    intro c cs zs
    rw [List.flatMap_cons, List.append_assoc, firstChar_escape]
  induction as generalizing bs with
  | nil =>
    cases bs with
    | nil => simpa using h
    | cons b bs =>
      have hfirst := congrArg firstChar h
      rw [List.flatMap_nil, List.nil_append, hquote, hcons] at hfirst
      cases hfirst
  | cons a as ih =>
    cases bs with
    | nil =>
      have hfirst := congrArg firstChar h
      rw [List.flatMap_nil, List.nil_append, hquote, hcons] at hfirst
      cases hfirst
    | cons b bs =>
      have hfirst := congrArg firstChar h
      rw [hcons, hcons, Option.some.injEq, Prod.mk.injEq] at hfirst
      obtain ⟨rfl, hrest⟩ := hfirst
      obtain ⟨rfl, hxs⟩ := ih hrest
      exact ⟨rfl, hxs⟩

/-- A string literal ends where it does. -/
theorem printString_append_injective {s t : String} {xs ys : List Char}
    (h : printString s ++ xs = printString t ++ ys) : s = t ∧ xs = ys := by
  simp only [printString, List.cons_append, List.append_assoc, List.cons.injEq, true_and] at h
  obtain ⟨hs, hxs⟩ := escapes_injective h
  exact ⟨String.ext hs, hxs⟩

/-! ### Numbers -/

theorem toDigits_injective {m n : Nat} (h : Nat.toDigits 10 m = Nat.toDigits 10 n) : m = n := by
  rw [← Nat.ofDigitChars_ten_toDigits (n := m), h, Nat.ofDigitChars_ten_toDigits]

private theorem isDigit_of_mem_printNumber {n : Nat} {c : Char} (h : c ∈ Nat.toDigits 10 n) : c.isDigit = true :=
  Nat.isDigit_of_mem_toDigits (by decide) (by decide) h

private theorem isNumberChar_of_mem (hcodec : codec.Distinct) (n : Number φ) :
    ∀ c ∈ printNumber codec n, isNumberChar c = true := by
  cases n with
  | pos n =>
    intro c hc
    simp [isNumberChar, isDigit_of_mem_printNumber hc]
  | neg k =>
    intro c hc
    rcases List.mem_cons.mp hc with rfl | hc
    · decide
    · simp [isNumberChar, isDigit_of_mem_printNumber hc]
  | float x => exact hcodec.chars x

private theorem printNumber_injective (hcodec : codec.Distinct) {m n : Number φ}
    (h : printNumber codec m = printNumber codec n) : m = n := by
  -- A float's text holds what no integer's does.
  have hfloat : ∀ {n : Number φ} {x : φ}, printNumber codec n = codec.write x → n = .float x := by
    intro n x h
    obtain ⟨c, hc, hmark⟩ := hcodec.fractional x
    rw [← h] at hc
    have hdigit : c.isDigit = false ∧ c ≠ '-' := by
      rcases hmark with rfl | rfl | rfl <;> decide
    cases n with
    | pos n =>
      rw [isDigit_of_mem_printNumber hc] at hdigit
      cases hdigit.1
    | neg k =>
      rcases List.mem_cons.mp hc with hc | hc
      · exact absurd hc hdigit.2
      · rw [isDigit_of_mem_printNumber hc] at hdigit
        cases hdigit.1
    | float y => rw [hcodec.injective h]
  have hminus : ∀ n k, '-' :: Nat.toDigits 10 k ≠ Nat.toDigits 10 n := by
    intro n k h
    have hm : '-' ∈ Nat.toDigits 10 n := by
      rw [← h]
      exact List.mem_cons_self
    exact absurd (isDigit_of_mem_printNumber hm) (by decide)
  cases n with
  | float x => exact hfloat h
  | pos n =>
    cases m with
    | float x => exact (hfloat h.symm).symm
    | pos m => rw [UInt64.toNat_inj.mp (toDigits_injective h)]
    | neg j => exact absurd h (hminus _ _)
  | neg k =>
    cases m with
    | float x => exact (hfloat h.symm).symm
    | pos m => exact absurd h.symm (hminus _ _)
    | neg j =>
      have hjk := toDigits_injective (List.cons.inj h).2
      rw [Fin.ext (Nat.succ.inj hjk)]

/-! ### Values -/

/-- What can follow a value's text: nothing a number's text holds. -/
def Stops (r : List Char) : Prop := ∀ c ∈ r.head?, isNumberChar c = false

private theorem printNumber_append_injective (hcodec : codec.Distinct) {m n : Number φ} {r s : List Char}
    (hr : Stops r) (hs : Stops s) (h : printNumber codec m ++ r = printNumber codec n ++ s) : m = n ∧ r = s := by
  have htake : ∀ (n : Number φ) {r : List Char}, Stops r →
      (printNumber codec n ++ r).takeWhile isNumberChar = printNumber codec n ∧
        (printNumber codec n ++ r).dropWhile isNumberChar = r := by
    intro n r hr
    have hall := isNumberChar_of_mem hcodec n
    rw [List.takeWhile_append_of_pos hall, List.dropWhile_append_of_pos hall]
    cases r with
    | nil => simp
    | cons c cs =>
      have hc : isNumberChar c = false := hr c rfl
      simp [hc]
  have h1 := congrArg (List.takeWhile isNumberChar) h
  have h2 := congrArg (List.dropWhile isNumberChar) h
  rw [(htake m hr).1, (htake n hs).1] at h1
  rw [(htake m hr).2, (htake n hs).2] at h2
  exact ⟨printNumber_injective hcodec h1, h2⟩

/-- The first character of a value's text tells what kind of value it is. -/
private def kindOf (c : Char) : Nat :=
  if c = 'n' then 0 else if c = 't' then 1 else if c = 'f' then 2 else if isNumberChar c then 3
  else if c = '"' then 4 else if c = '[' then 5 else if c = '{' then 6 else 7

private def kind : Value φ → Nat
  | .null => 0
  | .bool true => 1
  | .bool false => 2
  | .number _ => 3
  | .string _ => 4
  | .array _ => 5
  | .object _ => 6

private theorem kindOf_head (hcodec : codec.Distinct) (v : Value φ) :
    ∃ c cs, print codec v = c :: cs ∧ kindOf c = kind v := by
  cases v with
  | null => exact ⟨_, _, rfl, rfl⟩
  | bool b => cases b <;> exact ⟨_, _, rfl, rfl⟩
  | string s => exact ⟨_, _, rfl, rfl⟩
  | array items => exact ⟨_, _, rfl, rfl⟩
  | object members => exact ⟨_, _, rfl, rfl⟩
  | number n =>
    have hne : printNumber codec n ≠ [] := by
      cases n with
      | pos n => exact Nat.toDigits_ne_nil
      | neg k => exact List.cons_ne_nil _ _
      | float x =>
        obtain ⟨c, hc, -⟩ := hcodec.fractional x
        exact List.ne_nil_of_mem hc
    obtain ⟨c, cs, hc⟩ := List.exists_cons_of_ne_nil hne
    refine ⟨c, cs, hc, ?_⟩
    have hnum := isNumberChar_of_mem hcodec n c (by rw [hc]; exact List.mem_cons_self)
    have hletters : c ≠ 'n' ∧ c ≠ 't' ∧ c ≠ 'f' := by
      refine ⟨?_, ?_, ?_⟩ <;> rintro rfl <;> revert hnum <;> decide
    simp [kindOf, kind, hletters, hnum]

private theorem stops_of_mem {c : Char} (hc : isNumberChar c = false) (r : List Char) : Stops (c :: r) := by
  intro d hd
  cases hd
  exact hc

/-- What follows an array's item. -/
private def afterItem (codec : FloatCodec φ) (vs : List (Value φ)) (r : List Char) : List Char :=
  match vs with
  | [] => ']' :: r
  | vs => ',' :: (printItems codec vs ++ ']' :: r)

private theorem printItems_cons (codec : FloatCodec φ) (v : Value φ) (vs : List (Value φ)) (r : List Char) :
    printItems codec (v :: vs) ++ ']' :: r = print codec v ++ afterItem codec vs r := by
  cases vs with
  | nil => rfl
  | cons w vs => simp [printItems, afterItem]

private theorem stops_afterItem (codec : FloatCodec φ) (vs : List (Value φ)) (r : List Char) :
    Stops (afterItem codec vs r) := by
  cases vs with
  | nil => exact stops_of_mem (by decide) _
  | cons w vs => exact stops_of_mem (by decide) _

/-- What follows an object's member. -/
private def afterMember (codec : FloatCodec φ) (ms : List (String × Value φ)) (r : List Char) : List Char :=
  match ms with
  | [] => '}' :: r
  | ms => ',' :: (printMembers codec ms ++ '}' :: r)

private theorem printMembers_cons (codec : FloatCodec φ) (n : String) (v : Value φ) (ms : List (String × Value φ))
    (r : List Char) : printMembers codec ((n, v) :: ms) ++ '}' :: r =
      printString n ++ ':' :: (print codec v ++ afterMember codec ms r) := by
  cases ms with
  | nil => simp [printMembers, afterMember]
  | cons m ms => simp [printMembers, afterMember]

private theorem stops_afterMember (codec : FloatCodec φ) (ms : List (String × Value φ)) (r : List Char) :
    Stops (afterMember codec ms r) := by
  cases ms with
  | nil => exact stops_of_mem (by decide) _
  | cons m ms => exact stops_of_mem (by decide) _

/-- A bracket starts no item. -/
private theorem print_append_ne (hcodec : codec.Distinct) (v : Value φ) {c : Char} (hc : kindOf c = 7)
    {r s : List Char} : print codec v ++ r ≠ c :: s := by
  obtain ⟨d, ds, hd, hk⟩ := kindOf_head hcodec v
  intro h
  rw [hd] at h
  rw [(List.cons.inj h).1, hc] at hk
  cases v with
  | bool b => cases b <;> cases hk
  | _ => cases hk

mutual

/-- A value's text ends where it does, if no number's text could go on there. -/
theorem print_append_injective (hcodec : codec.Distinct) : (v w : Value φ) → {r s : List Char} → Stops r → Stops s →
    print codec v ++ r = print codec w ++ s → v = w ∧ r = s
  | v, w, r, s, hr, hs, h => by
    have hkind : kind v = kind w := by
      obtain ⟨c, cs, hc, hkc⟩ := kindOf_head hcodec v
      obtain ⟨d, ds, hd, hkd⟩ := kindOf_head hcodec w
      rw [hc, hd] at h
      rw [← hkc, ← hkd, (List.cons.inj h).1]
    match v, w with
    | .null, .null => exact ⟨rfl, List.append_cancel_left h⟩
    | .bool true, .bool true => exact ⟨rfl, List.append_cancel_left h⟩
    | .bool false, .bool false => exact ⟨rfl, List.append_cancel_left h⟩
    | .number m, .number n =>
      obtain ⟨rfl, hrest⟩ := printNumber_append_injective hcodec hr hs h
      exact ⟨rfl, hrest⟩
    | .string a, .string b =>
      obtain ⟨rfl, hrest⟩ := printString_append_injective h
      exact ⟨rfl, hrest⟩
    | .array vs, .array ws =>
      simp only [print, List.cons_append, List.append_assoc, List.cons.injEq, true_and, List.nil_append] at h
      obtain ⟨rfl, hrest⟩ := printItems_append_injective hcodec vs ws h
      exact ⟨rfl, hrest⟩
    | .object ms, .object ns =>
      simp only [print, List.cons_append, List.append_assoc, List.cons.injEq, true_and, List.nil_append] at h
      obtain ⟨rfl, hrest⟩ := printMembers_append_injective hcodec ms ns h
      exact ⟨rfl, hrest⟩
    | .bool true, .bool false | .bool false, .bool true => cases hkind
    | .null, .bool b | .bool b, .null | .number _, .bool b | .bool b, .number _ | .string _, .bool b | .bool b, .string _
    | .array _, .bool b | .bool b, .array _ | .object _, .bool b | .bool b, .object _ => cases b <;> cases hkind
    | .null, .number _ | .null, .string _ | .null, .array _ | .null, .object _ | .number _, .null | .number _, .string _
    | .number _, .array _ | .number _, .object _ | .string _, .null | .string _, .number _ | .string _, .array _
    | .string _, .object _ | .array _, .null | .array _, .number _ | .array _, .string _ | .array _, .object _
    | .object _, .null | .object _, .number _ | .object _, .string _ | .object _, .array _ => cases hkind

theorem printItems_append_injective (hcodec : codec.Distinct) : (vs ws : List (Value φ)) → {r s : List Char} →
    printItems codec vs ++ ']' :: r = printItems codec ws ++ ']' :: s → vs = ws ∧ r = s
  | [], [], r, s, h => ⟨rfl, (List.cons.inj h).2⟩
  | [], w :: ws, r, s, h => by
    rw [printItems_cons] at h
    exact absurd h.symm (print_append_ne hcodec w (by decide))
  | v :: vs, [], r, s, h => by
    rw [printItems_cons] at h
    exact absurd h (print_append_ne hcodec v (by decide))
  | v :: vs, w :: ws, r, s, h => by
    rw [printItems_cons, printItems_cons] at h
    obtain ⟨rfl, hrest⟩ := print_append_injective hcodec v w (stops_afterItem codec vs r) (stops_afterItem codec ws s) h
    match vs, ws with
    | [], [] => exact ⟨rfl, (List.cons.inj hrest).2⟩
    | [], _ :: _ | _ :: _, [] => cases hrest
    | a :: vs, b :: ws =>
      obtain ⟨htail, hr⟩ := printItems_append_injective hcodec (a :: vs) (b :: ws) (List.cons.inj hrest).2
      exact ⟨by rw [htail], hr⟩

theorem printMembers_append_injective (hcodec : codec.Distinct) : (ms ns : List (String × Value φ)) →
    {r s : List Char} → printMembers codec ms ++ '}' :: r = printMembers codec ns ++ '}' :: s → ms = ns ∧ r = s
  | [], [], r, s, h => ⟨rfl, (List.cons.inj h).2⟩
  | [], (n, w) :: ns, r, s, h => by
    rw [printMembers_cons] at h
    cases h
  | (m, v) :: ms, [], r, s, h => by
    rw [printMembers_cons] at h
    cases h
  | (m, v) :: ms, (n, w) :: ns, r, s, h => by
    rw [printMembers_cons, printMembers_cons] at h
    obtain ⟨rfl, hvalue⟩ := printString_append_injective h
    obtain ⟨rfl, hrest⟩ := print_append_injective hcodec v w (stops_afterMember codec ms r)
      (stops_afterMember codec ns s) (List.cons.inj hvalue).2
    match ms, ns with
    | [], [] => exact ⟨rfl, (List.cons.inj hrest).2⟩
    | [], _ :: _ | _ :: _, [] => cases hrest
    | a :: ms, b :: ns =>
      obtain ⟨htail, hr⟩ := printMembers_append_injective hcodec (a :: ms) (b :: ns) (List.cons.inj hrest).2
      exact ⟨by rw [htail], hr⟩

end

/-- A value is known by its text. -/
theorem print_injective (hcodec : codec.Distinct) : Function.Injective (print codec) := by
  intro v w h
  have hstops : Stops [] := fun c hc => by cases hc
  have happend : print codec v ++ [] = print codec w ++ [] := by rw [h]
  exact (print_append_injective hcodec v w hstops hstops happend).1

/-- Two objects with one text, once their members are sorted, have the same members, each sorted. -/
theorem perm_of_print_sortMembers (hcodec : codec.Distinct) {ms ns : List (String × Value φ)}
    (h : print codec (sortMembers (.object ms)) = print codec (sortMembers (.object ns))) :
    (sortEach ms).Perm (sortEach ns) := by
  have hobject := print_injective hcodec h
  rw [sortMembers, sortMembers, Value.object.injEq] at hobject
  have hms := List.perm_insertionSort (fun a b : String × Value φ => a.1 ≤ b.1) (sortEach ms)
  have hns := List.perm_insertionSort (fun a b : String × Value φ => a.1 ≤ b.1) (sortEach ns)
  rw [hobject] at hms
  exact hms.symm.trans hns

/-- No value's text holds a control character. -/
theorem le_of_mem_print_of_distinct (hcodec : codec.Distinct) : (v : Value φ) → ∀ c ∈ print codec v, 0x20 ≤ c.toNat := by
  apply le_of_mem_print_of_floats
  intro x c hc
  have hnum := hcodec.chars x c hc
  simp only [isNumberChar, Bool.or_eq_true, decide_eq_true_eq] at hnum
  rcases hnum with ((((hd | rfl) | rfl) | rfl) | rfl) | rfl
  · exact le_of_isDigit hd
  all_goals decide

end JsonText
