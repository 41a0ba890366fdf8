import Mcpdef.Lib.Escape
import Mcpdef.Lib.Pieces
import Mcpdef.Listener.Forwarded
import Mcpdef.Policy.UriNormal

/-!
# The header that Envoy writes

The elements of a header value read back what was written (`readElements_writeElements`).  A header that came in several
values is read as these with commas between, and commas may stand in a quoted value: the one element that a chain is
read from is in one of the values if there is no other (`xfcc_in_one_value`).
-/

namespace Mcpdef.Listener

open Escape Policy

/-- The elements of a value. -/
def readElements (text : Text) : Except Unread (List (List (Text × Text))) := xfccElements [] (trimStart ows text)

/-! ### Writing -/

def writePair (pair : Text × Text) : Text := pair.1 ++ '=' :: '"' :: escape ['\\', '"'] pair.2 ++ ['"']

def writeElement (element : List (Text × Text)) : Text := [';'].intercalate (element.map writePair)

def writeElements (elements : List (List (Text × Text))) : Text := [','].intercalate (elements.map writeElement)

/-- A key: letters, digits and `-`. -/
def IsKey (key : Text) : Prop := key ≠ [] ∧ ∀ c ∈ key, c.isAlphanum = true ∨ c = '-'

/-! ### One turn -/

/-- What the elements are, after a pair: by what follows it. -/
def readOn (key : Text) (pairs : List (Text × Text)) : Text → Except Unread (List (List (Text × Text)))
  | [] => .ok [pairs]
  | c :: rest =>
    if c = ';' then xfccElements pairs rest
    else if c = ',' then (xfccElements [] (trimStart ows rest)).map (pairs :: ·)
    else .error (.moreAfter key)

/-- A turn of the reading of elements, and what it leaves to read. -/
theorem xfccElements_eq (pairs : List (Text × Text)) (text : Text) : xfccElements pairs text =
    match splitOnce '=' text with
    | none => .error .keyWithoutValue
    | some (key, after) =>
      if trimMatches ows key = [] ∨ ¬ (trimMatches ows key).all fun c => c.isAlphanum ∨ c = '-' then
        .error (.notKey (trimMatches ows key))
      else
        match xfccValue (trimMatches ows key) (trimStart ows after) with
        | .error why => .error why
        | .ok (value, rest) =>
          readOn (trimMatches ows key) (pairs ++ [(trimMatches ows key, value)]) (trimStart ows rest) := by
  rw [xfccElements]
  split
  · simp [*]
  · simp only [*]
    split_ifs
    · rfl
    · split
      · simp [*]
      · simp only [*]
        split <;> simp [readOn, *]

/-- The key and the value that a text begins with, and what follows them. -/
def Turn (text key value rest : Text) : Prop :=
  ∃ before after left, splitOnce '=' text = some (before, after) ∧ trimMatches ows before = key ∧ IsKey key ∧
    xfccValue key (trimStart ows after) = .ok (value, left) ∧ trimStart ows left = rest

theorem isKey_iff {key : Text} : IsKey key ↔ ¬ (key = [] ∨ ¬ key.all fun c => c.isAlphanum ∨ c = '-') := by
  rw [IsKey, not_or, not_not, List.all_eq_true]
  simp

section

variable {pairs : List (Text × Text)} {text key value rest : Text} {elements : List (List (Text × Text))}

theorem Turn.elements_eq (h : Turn text key value rest) (pairs : List (Text × Text)) :
    xfccElements pairs text = readOn key (pairs ++ [(key, value)]) rest := by
  obtain ⟨before, after, left, hsplit, rfl, hkey, hvalue, rfl⟩ := h
  rw [xfccElements_eq, hsplit]
  dsimp only
  rw [if_neg (isKey_iff.mp hkey), hvalue]

theorem Turn.pair (h : Turn text key value (';' :: rest)) :
    xfccElements pairs text = xfccElements (pairs ++ [(key, value)]) rest := by
  rw [h.elements_eq]
  simp [readOn]

theorem Turn.element (h : Turn text key value (',' :: rest)) :
    xfccElements pairs text = (xfccElements [] (trimStart ows rest)).map ((pairs ++ [(key, value)]) :: ·) := by
  rw [h.elements_eq]
  simp [readOn]

/-- What is read begins with a key and a value, and ends there, or goes on with another pair or another element. -/
theorem turn_of_elements (h : xfccElements pairs text = .ok elements) : ∃ key value rest, Turn text key value rest ∧
    ((rest = [] ∧ elements = [pairs ++ [(key, value)]]) ∨
    (∃ rest', rest = ';' :: rest' ∧ xfccElements (pairs ++ [(key, value)]) rest' = .ok elements) ∨
    ∃ rest' elements', rest = ',' :: rest' ∧ xfccElements [] (trimStart ows rest') = .ok elements' ∧
      elements = (pairs ++ [(key, value)]) :: elements') := by
  rw [xfccElements_eq] at h
  split at h
  · cases h
  · rename_i before after hsplit
    by_cases hkey : trimMatches ows before = [] ∨ ¬ (trimMatches ows before).all fun c => c.isAlphanum ∨ c = '-'
    · rw [if_pos hkey] at h
      cases h
    · rw [if_neg hkey] at h
      split at h
      · cases h
      · rename_i value left hvalue
        refine ⟨_, value, _, ⟨before, after, left, hsplit, rfl, isKey_iff.mpr hkey, hvalue, rfl⟩, ?_⟩
        cases hleft : trimStart ows left with
        | nil =>
          rw [hleft, readOn, Except.ok.injEq] at h
          exact .inl ⟨rfl, h.symm⟩
        | cons c rest' =>
          rw [hleft, readOn] at h
          split_ifs at h with hpair hcomma
          · exact .inr (.inl ⟨rest', by rw [hpair], h⟩)
          · obtain ⟨elements', helements', rfl⟩ := Fallible.map_eq_ok.mp h
            exact .inr (.inr ⟨rest', elements', by rw [hcomma], helements', rfl⟩)

end

/-! ### What is written is read back -/

theorem trimStart_of_head {p : Char → Bool} {text : Text} (h : ∀ c ∈ text.head?, p c = false) : trimStart p text = text := by
  cases text with
  | nil => rfl
  | cons c text =>
    have hc := h c rfl
    simp [trimStart, hc]

theorem trimMatches_of_forall {p : Char → Bool} {text : Text} (h : ∀ c ∈ text, p c = false) : trimMatches p text = text := by
  have hstart : trimStart p text = text := trimStart_of_head fun c hc => h c (List.mem_of_mem_head? hc)
  have hend : trimStart p text.reverse = text.reverse :=
    trimStart_of_head fun c hc => h c (List.mem_reverse.mp (List.mem_of_mem_head? hc))
  rw [trimMatches, hstart]
  exact (congrArg List.reverse hend).trans text.reverse_reverse

theorem IsKey.of_mem {key : Text} (h : IsKey key) {c : Char} (hc : c ∈ key) : c ≠ '=' ∧ c ≠ ',' ∧ ows c = false := by
  have hother : ∀ d ∈ ['=', ',', ' ', '\t'], d.isAlphanum = false ∧ d ≠ '-' := by
    simp [Char.isAlphanum, Char.isAlpha, Char.isUpper, Char.isLower, Char.isDigit]
  have hne : ∀ d ∈ ['=', ',', ' ', '\t'], c ≠ d := by
    rintro d hd rfl
    have hd' := hother c hd
    rcases h.2 c hc with halnum | hdash
    · simp [halnum] at hd'
    · exact hd'.2 hdash
  refine ⟨hne _ (by simp), hne _ (by simp), ?_⟩
  have h1 := hne ' ' (by simp)
  have h2 := hne '\t' (by simp)
  simp [ows, h1, h2]

theorem unquoted_escape (value rest : Text) : unquoted (escape ['\\', '"'] value ++ '"' :: rest) = .ok (value, rest) := by
  induction value with
  | nil => rfl
  | cons c value ih =>
    rw [escape_cons, List.append_assoc]
    split_ifs with hc
    · rw [List.cons_append, List.cons_append, List.nil_append, unquoted, ih]
      rfl
    · simp only [List.mem_cons, List.not_mem_nil, or_false, not_or] at hc
      rw [List.singleton_append, unquoted]
      · rw [ih]
        rfl
      · exact hc.2
      · intro d ds hbackslash _
        exact hc.1 hbackslash
      · intro hbackslash _
        exact hc.1 hbackslash

theorem turn_writePair {pair : Text × Text} (h : IsKey pair.1) (rest : Text) :
    Turn (writePair pair ++ rest) pair.1 pair.2 (trimStart ows rest) := by
  have htext : writePair pair ++ rest = pair.1 ++ '=' :: '"' :: (escape ['\\', '"'] pair.2 ++ '"' :: rest) := by
    simp [writePair]
  rw [htext]
  refine ⟨pair.1, _, rest, splitOnce_append (fun hmem => (h.of_mem hmem).1 rfl) _,
    trimMatches_of_forall fun c hc => (h.of_mem hc).2.2, h, ?_, rfl⟩
  have hquote : trimStart ows ('"' :: (escape ['\\', '"'] pair.2 ++ '"' :: rest)) =
      '"' :: (escape ['\\', '"'] pair.2 ++ '"' :: rest) := rfl
  rw [hquote, xfccValue, unquoted_escape]

/-- The pairs of an element, after those that were read before them. -/
theorem read_element {element : List (Text × Text)} (hne : element ≠ []) (h : ∀ pair ∈ element, IsKey pair.1)
    (pairs : List (Text × Text)) : xfccElements pairs (writeElement element) = .ok [pairs ++ element] ∧
      ∀ rest, xfccElements pairs (writeElement element ++ ',' :: rest) =
        (xfccElements [] (trimStart ows rest)).map ((pairs ++ element) :: ·) := by
  induction element generalizing pairs with
  | nil => exact absurd rfl hne
  | cons pair element ih =>
    rw [List.forall_mem_cons] at h
    cases element with
    | nil =>
      have htext : writeElement [pair] = writePair pair := by simp [writeElement]
      rw [htext]
      refine ⟨?_, fun rest => (turn_writePair h.1 _).element⟩
      have hturn := turn_writePair h.1 []
      rw [List.append_nil] at hturn
      exact hturn.elements_eq pairs
    | cons pair' element =>
      have htext : writeElement (pair :: pair' :: element) = writePair pair ++ ';' :: writeElement (pair' :: element) := by
        simp [writeElement, List.intercalate_cons_cons]
      obtain ⟨hend, hmore⟩ := ih (by simp) h.2 (pairs ++ [pair])
      rw [htext]
      refine ⟨?_, ?_⟩
      · rw [(turn_writePair h.1 _).pair, hend]
        simp
      · intro rest
        rw [List.append_assoc, List.cons_append, (turn_writePair h.1 _).pair, hmore]
        simp

/-- An element begins with a letter, a digit or `-`. -/
theorem trimStart_writeElement {element : List (Text × Text)} (hne : element ≠ []) (h : ∀ pair ∈ element, IsKey pair.1)
    (rest : Text) : trimStart ows (writeElement element ++ rest) = writeElement element ++ rest := by
  cases element with
  | nil => exact absurd rfl hne
  | cons pair element =>
    have hkey := h pair (by simp)
    obtain ⟨c, cs, hc⟩ := List.exists_cons_of_ne_nil hkey.1
    have htext : ∃ tail, writeElement (pair :: element) = c :: tail := by
      cases element <;> simp [writeElement, writePair, hc, List.intercalate_cons_cons]
    obtain ⟨tail, htail⟩ := htext
    rw [htail]
    apply trimStart_of_head
    intro d hd
    simp only [List.cons_append, List.head?_cons, Option.mem_some_iff] at hd
    subst hd
    exact (hkey.of_mem (by simp [hc])).2.2

/-- Elements that are written are read back. -/
theorem readElements_writeElements {elements : List (List (Text × Text))} (hne : elements ≠ [])
    (h : ∀ element ∈ elements, element ≠ [] ∧ ∀ pair ∈ element, IsKey pair.1) :
    readElements (writeElements elements) = .ok elements := by
  induction elements with
  | nil => exact absurd rfl hne
  | cons element elements ih =>
    rw [List.forall_mem_cons] at h
    obtain ⟨⟨hpairs, hkeys⟩, hrest⟩ := h
    cases elements with
    | nil =>
      have htext : writeElements [element] = writeElement element ++ [] := by simp [writeElements]
      rw [readElements, htext, trimStart_writeElement hpairs hkeys, List.append_nil, (read_element hpairs hkeys []).1]
      rfl
    | cons element' elements =>
      have htext : writeElements (element :: element' :: elements) =
          writeElement element ++ ',' :: writeElements (element' :: elements) := by
        simp [writeElements, List.intercalate_cons_cons]
      have hread := ih (by simp) hrest
      rw [readElements] at hread
      rw [readElements, htext, trimStart_writeElement hpairs hkeys, (read_element hpairs hkeys []).2, hread]
      rfl

/-! ### Commas -/

theorem count_trimStart (text : Text) : (trimStart ows text).count ',' = text.count ',' := by
  induction text with
  | nil => rfl
  | cons c text ih =>
    by_cases hc : ows c = true
    · have hne : c ≠ ',' := by
        rintro rfl
        cases hc
      rw [trimStart, List.dropWhile_cons_of_pos hc, List.count_cons_of_ne hne]
      exact ih
    · rw [trimStart, List.dropWhile_cons_of_neg hc]

theorem count_unquoted {text value rest : Text} (h : unquoted text = .ok (value, rest)) :
    text.count ',' = value.count ',' + rest.count ',' := by
  induction text using unquoted.induct generalizing value with
  | case1 => cases h
  | case2 rest' =>
    cases h
    simp
  | case3 c text ih =>
    rw [unquoted] at h
    obtain ⟨r, hr, heq⟩ := Fallible.map_eq_ok.mp h
    cases heq
    have hcount := ih hr
    simp only [List.count_cons] at hcount ⊢
    rw [hcount]
    simp
    omega
  | case4 => cases h
  | case5 c text hquote hescape hend ih =>
    rw [unquoted] at h
    · obtain ⟨r, hr, heq⟩ := Fallible.map_eq_ok.mp h
      cases heq
      have hcount := ih hr
      simp only [List.count_cons, hcount]
      omega
    all_goals assumption

theorem count_xfccValue {key text value rest : Text} (h : xfccValue key text = .ok (value, rest)) :
    text.count ',' = value.count ',' + rest.count ',' := by
  unfold xfccValue at h
  split at h
  · rw [List.count_cons_of_ne (by decide)]
    exact count_unquoted h
  · dsimp only at h
    split_ifs at h
    cases h
    have hvalue : (trimEnd ows (text.takeWhile fun c => c ≠ ';' ∧ c ≠ ',')).count ',' = 0 := by
      rw [List.count_eq_zero]
      intro hmem
      have htake := (List.dropWhile_suffix _).subset (List.mem_reverse.mp hmem)
      have hcomma := List.mem_takeWhile_imp (List.mem_reverse.mp htake)
      simp at hcomma
    have htake : (text.takeWhile fun c => c ≠ ';' ∧ c ≠ ',').count ',' = 0 := by
      rw [List.count_eq_zero]
      intro hmem
      have hcomma := List.mem_takeWhile_imp hmem
      simp at hcomma
    rw [hvalue, Nat.zero_add]
    conv_lhs => rw [← List.takeWhile_append_dropWhile (p := fun c => c ≠ ';' ∧ c ≠ ',') (l := text)]
    rw [List.count_append, htake, Nat.zero_add]

section

variable {pairs : List (Text × Text)} {text key value rest : Text} {elements : List (List (Text × Text))}

/-- A character that a text is not trimmed of. -/
theorem mem_trimMatches {p : Char → Bool} {c : Char} (hp : p c = false) (h : c ∈ text) : c ∈ trimMatches p text := by
  have hdrop : ∀ cs : Text, c ∈ cs → c ∈ cs.dropWhile p := by
    intro cs hcs
    rw [← List.takeWhile_append_dropWhile (p := p) (l := cs), List.mem_append] at hcs
    rcases hcs with htake | hdrop
    · have htrue := List.mem_takeWhile_imp htake
      rw [hp] at htrue
      cases htrue
    · exact hdrop
  exact List.mem_reverse.mpr (hdrop _ (List.mem_reverse.mpr (hdrop _ h)))

/-- Before the `=` there is nothing but the key, so no comma. -/
theorem comma_notMem_before {before : Text} (h : IsKey (trimMatches ows before)) : ',' ∉ before := by
  intro hmem
  exact (h.of_mem (mem_trimMatches (by decide) hmem)).2.1 rfl

theorem Turn.count (h : Turn text key value rest) : text.count ',' = value.count ',' + rest.count ',' := by
  obtain ⟨before, after, left, hsplit, rfl, hkey, hvalue, rfl⟩ := h
  have hcount := count_xfccValue hvalue
  have hbefore : before.count ',' = 0 := List.count_eq_zero.mpr (comma_notMem_before hkey)
  rw [(of_splitOnce hsplit).2, List.count_append, hbefore, List.count_cons_of_ne (by decide), count_trimStart, ← hcount,
    count_trimStart, Nat.zero_add]

theorem Turn.length (h : Turn text key value rest) : rest.length < text.length := by
  obtain ⟨before, after, left, hsplit, rfl, -, hvalue, rfl⟩ := h
  have h1 := length_of_splitOnce hsplit
  have h2 := length_trimStart_le ows after
  have h3 := length_of_xfccValue hvalue
  have h4 := length_trimStart_le ows left
  omega

/-- The commas in the values of an element. -/
def commas (element : List (Text × Text)) : Nat := (element.map fun pair => pair.2.count ',').sum

theorem commas_concat (pairs : List (Text × Text)) (key value : Text) :
    commas (pairs ++ [(key, value)]) = commas pairs + value.count ',' := by
  simp [commas]

/-- Each comma of what is read is in a value, or between two elements. -/
theorem count_elements (h : xfccElements pairs text = .ok elements) :
    0 < elements.length ∧ commas pairs + text.count ',' + 1 = (elements.map commas).sum + elements.length := by
  generalize hn : text.length = n
  induction n using Nat.strong_induction_on generalizing pairs text elements with
  | h n ih =>
    obtain ⟨key, value, rest, hturn, hrest⟩ := turn_of_elements h
    have hlength := hturn.length
    have hcount := hturn.count
    rcases hrest with ⟨rfl, rfl⟩ | ⟨rest', rfl, hread⟩ | ⟨rest', elements', rfl, hread, rfl⟩
    · rw [List.count_nil] at hcount
      simp only [List.map_cons, List.map_nil, List.sum_cons, List.sum_nil, List.length_singleton, commas_concat]
      omega
    · rw [List.length_cons] at hlength
      rw [List.count_cons_of_ne (by decide)] at hcount
      obtain ⟨hpos, hsum⟩ := ih rest'.length (by omega) hread rfl
      rw [commas_concat] at hsum
      omega
    · have htrim := length_trimStart_le ows rest'
      rw [List.length_cons] at hlength
      rw [List.count_cons_self] at hcount
      obtain ⟨hpos, hsum⟩ := ih _ (by omega) hread rfl
      have hnil : commas [] = 0 := rfl
      rw [count_trimStart, hnil] at hsum
      simp only [List.map_cons, List.sum_cons, List.length_cons, commas_concat]
      omega

/-! ### Values in a row -/

theorem trimStart_append_comma (a b : Text) : trimStart ows (a ++ ',' :: b) = trimStart ows a ++ ',' :: b := by
  induction a with
  | nil => rfl
  | cons c a ih =>
    by_cases hc : ows c = true
    · simpa [trimStart, List.dropWhile_cons_of_pos hc] using ih
    · simp [trimStart, List.dropWhile_cons_of_neg hc]

/-- A quoted value that closes is read the same whatever follows, and one that does not is never closed on its own. -/
theorem unquoted_append {a b : Text} (h : unquoted (a ++ b) = .ok (value, rest)) :
    unquoted a = .error .neverClosed ∨ ∃ left, unquoted a = .ok (value, left) ∧ rest = left ++ b := by
  induction a using unquoted.induct generalizing value with
  | case1 => exact .inl rfl
  | case2 a =>
    cases h
    exact .inr ⟨a, rfl, rfl⟩
  | case3 c a ih =>
    rw [List.cons_append, List.cons_append, unquoted] at h
    obtain ⟨r, hr, heq⟩ := Fallible.map_eq_ok.mp h
    cases heq
    rw [unquoted]
    rcases ih hr with herror | ⟨left, hleft, hrest⟩
    · exact .inl (by rw [herror]; rfl)
    · exact .inr ⟨left, by rw [hleft]; rfl, hrest⟩
  | case4 => exact .inl rfl
  | case5 c a hquote hescape hend ih =>
    have hne : c ≠ '\\' := by
      intro hc
      cases a with
      | nil => exact hend hc rfl
      | cons d ds => exact hescape d ds hc rfl
    rw [List.cons_append, unquoted] at h
    · obtain ⟨r, hr, heq⟩ := Fallible.map_eq_ok.mp h
      cases heq
      rw [unquoted]
      · rcases ih hr with herror | ⟨left, hleft, hrest⟩
        · exact .inl (by rw [herror]; rfl)
        · exact .inr ⟨left, by rw [hleft]; rfl, hrest⟩
      all_goals assumption
    · exact hquote
    · intro d ds hc _
      exact hne hc
    · intro hc _
      exact hne hc

theorem xfccValue_append {a b : Text} (h : xfccValue key (a ++ ',' :: b) = .ok (value, rest)) :
    xfccValue key a = .error .neverClosed ∨ ∃ left, xfccValue key a = .ok (value, left) ∧ rest = left ++ ',' :: b := by
  by_cases hquote : ∃ quoted, a = '"' :: quoted
  · obtain ⟨quoted, rfl⟩ := hquote
    exact unquoted_append h
  · have htake : ∀ cs : Text, (cs ++ ',' :: b).takeWhile (fun c => c ≠ ';' ∧ c ≠ ',') =
        cs.takeWhile fun c => c ≠ ';' ∧ c ≠ ',' := by
      intro cs
      induction cs with
      | nil => rfl
      | cons c cs ih => by_cases hc : c ≠ ';' ∧ c ≠ ',' <;> simp_all
    have hdrop : ∀ cs : Text, (cs ++ ',' :: b).dropWhile (fun c => c ≠ ';' ∧ c ≠ ',') =
        (cs.dropWhile fun c => c ≠ ';' ∧ c ≠ ',') ++ ',' :: b := by
      intro cs
      induction cs with
      | nil => rfl
      | cons c cs ih => by_cases hc : c ≠ ';' ∧ c ≠ ',' <;> simp_all
    rw [xfccValue] at h
    · rw [xfccValue]
      · rw [htake, hdrop] at h
        split_ifs at h ⊢
        cases h
        exact .inr ⟨_, rfl, rfl⟩
      · intro quoted hq
        exact hquote ⟨quoted, hq⟩
    · intro quoted hq
      cases a with
      | nil => cases hq
      | cons c a => exact hquote ⟨a, by rw [(List.cons.inj hq).1]⟩

/-- Of a text up to a comma: it is refused on its own for a value that is never closed, or its turn stays in it. -/
theorem Turn.append_comma {a b : Text} (h : Turn (a ++ ',' :: b) key value rest) :
    (∀ pairs, xfccElements pairs a = .error .neverClosed) ∨
    ∃ left, Turn a key value left ∧ rest = left ++ ',' :: b := by
  obtain ⟨before, after, left, hsplit, rfl, hkey, hvalue, rfl⟩ := h
  have hcomma := comma_notMem_before hkey
  obtain ⟨-, htext⟩ := of_splitOnce hsplit
  have hafter : ∃ a', a = before ++ '=' :: a' ∧ after = a' ++ ',' :: b := by
    rcases List.append_eq_append_iff.mp htext with ⟨cs, rfl, hcs⟩ | ⟨cs, rfl, hcs⟩
    · cases cs with
      | nil => cases hcs
      | cons c cs =>
        cases hcs
        simp at hcomma
    · cases cs with
      | nil => cases hcs
      | cons c cs =>
        obtain ⟨rfl, rfl⟩ := List.cons.inj hcs
        exact ⟨cs, rfl, rfl⟩
  obtain ⟨a', rfl, rfl⟩ := hafter
  have hsplit' : splitOnce '=' (before ++ '=' :: a') = some (before, a') :=
    splitOnce_append (of_splitOnce hsplit).1 a'
  rw [trimStart_append_comma] at hvalue
  rcases xfccValue_append hvalue with herror | ⟨left', hleft, rfl⟩
  · refine .inl fun pairs => ?_
    rw [xfccElements_eq, hsplit']
    dsimp only
    rw [if_neg (isKey_iff.mp hkey), herror]
  · exact .inr ⟨trimStart ows left', ⟨before, a', left', hsplit', rfl, hkey, hleft, rfl⟩, trimStart_append_comma left' b⟩

/-- A text of one element ends inside a quoted value wherever it is cut at a comma. -/
theorem neverClosed_of_append_comma {a b : Text} (h : xfccElements pairs (a ++ ',' :: b) = .ok elements)
    (hone : elements.length = 1) : xfccElements pairs a = .error .neverClosed := by
  generalize hn : a.length = n
  induction n using Nat.strong_induction_on generalizing pairs a with
  | h n ih =>
    obtain ⟨key, value, rest, hturn, hrest⟩ := turn_of_elements h
    rcases hturn.append_comma with hclosed | ⟨left, hturn', rfl⟩
    · exact hclosed pairs
    · -- The turn stays in the first part, so it ends it, or a pair follows, or a second element.
      have hlength := hturn'.length
      rcases hrest with ⟨hnil, -⟩ | ⟨rest', hsemi, hread⟩ | ⟨rest', elements', -, hread, rfl⟩
      · simp at hnil
      · cases left with
        | nil => cases hsemi
        | cons c left =>
          obtain ⟨rfl, rfl⟩ := List.cons.inj hsemi
          rw [hturn'.pair]
          rw [List.length_cons] at hlength
          exact ih left.length (by omega) hread rfl
      · have hpos := (count_elements hread).1
        rw [List.length_cons] at hone
        omega

end

/-! ### One element in several values -/

/-- The values of a header, read as one with commas between. -/
def joined (texts : List Text) : Text := [','].intercalate texts

theorem count_joined {texts : List Text} (h : texts ≠ []) :
    (joined texts).count ',' + 1 = (texts.map fun text => text.count ',').sum + texts.length := by
  induction texts with
  | nil => exact absurd rfl h
  | cons text texts ih =>
    cases texts with
    | nil => simp [joined]
    | cons text' texts =>
      have htail := ih (by simp)
      rw [joined, List.intercalate_cons_cons]
      simp only [joined, List.map_cons, List.sum_cons, List.length_cons, List.count_append, List.count_cons, List.count_nil] at htail ⊢
      simp
      omega

/-- A header value that is not blank, and holds the one element. -/
def HoldsElement (element : List (Text × Text)) (value : List UInt8) : Prop :=
  ∃ text, toStr value = some text ∧ trimMatches ows text ≠ [] ∧ readElements text = .ok [element]

theorem forall₂_texts {values : List (List UInt8)} {name : String} {ts : List Text} (h : texts values name = .ok ts) :
    List.Forall₂ (fun value text => toStr value = some text) values ts := by
  induction values generalizing ts with
  | nil =>
    cases h
    exact .nil
  | cons value values ih =>
    obtain ⟨text, ts', hvalue, hvalues, rfl⟩ := Fallible.mapM_cons_eq_ok.mp h
    refine .cons ?_ (ih hvalues)
    split at hvalue
    · cases hvalue
      assumption
    · cases hvalue

/-- A chain is read from the one element of the values in a row. -/
theorem element_of_xfcc {enc : Encodings} {values : List (List UInt8)} {chain : List Der}
    (h : xfcc enc values = .ok (some chain)) : ∃ ts element, texts values xfccName = .ok ts ∧
      trimMatches ows (joined ts) ≠ [] ∧ readElements (joined ts) = .ok [element] := by
  rw [xfcc] at h
  obtain ⟨ts, hts, h⟩ := Fallible.bind_eq_ok.mp h
  dsimp only at h
  split_ifs at h with hblank
  · cases h
  · obtain ⟨elements, helements, h⟩ := Fallible.bind_eq_ok.mp h
    split at h
    · exact ⟨ts, _, hts, hblank, helements⟩
    · cases h

/-- What each text reads as on its own, the one element of them all, only one text can. -/
theorem length_of_element {ts : List Text} {text : Text} {element : List (Text × Text)} (hmem : text ∈ ts)
    (hall : readElements (joined ts) = .ok [element]) (htext : readElements text = .ok [element]) : ts.length = 1 := by
  have hne : ts ≠ [] := List.ne_nil_of_mem hmem
  have hpos : 0 < ts.length := List.length_pos_iff.mpr hne
  have hjoined := (count_elements hall).2
  have hone := (count_elements htext).2
  have hcount := count_joined hne
  have hle : text.count ',' ≤ (ts.map fun text => text.count ',').sum :=
    List.single_le_sum (fun _ _ => Nat.zero_le _) _ (List.mem_map_of_mem hmem)
  rw [count_trimStart] at hjoined hone
  omega

/-- No value holds the one element if there is another. -/
theorem length_of_holdsElement {values : List (List UInt8)} {ts : List Text} {element : List (Text × Text)}
    (hts : texts values xfccName = .ok ts) (hall : readElements (joined ts) = .ok [element]) {i : Nat} {value : List UInt8}
    (hvalue : values[i]? = some value) (hholds : HoldsElement element value) : values.length = 1 := by
  obtain ⟨text, htext, -, hread⟩ := hholds
  have hforall := forall₂_texts hts
  have hlength := hforall.length_eq
  obtain ⟨hi, hget⟩ := List.getElem?_eq_some_iff.mp hvalue
  have hi' : i < ts.length := by omega
  have hat := (List.forall₂_iff_get.mp hforall).2 i hi hi'
  rw [List.get_eq_getElem, List.get_eq_getElem, hget, htext, Option.some_inj] at hat
  rw [hlength]
  exact length_of_element (hat ▸ List.getElem_mem hi') hall hread

theorem joined_append {as bs : List Text} (ha : as ≠ []) (hb : bs ≠ []) : joined (as ++ bs) = joined as ++ ',' :: joined bs :=
  Pieces.intercalate_append ',' ha hb

/-- Elements that are written are read back.  Where a header comes in several values, a chain is read from one element
of all of them in a row, and it is in exactly one of them if there is no other: otherwise each value but the last ends
inside a quoted value that the next one goes on with. -/
theorem xfcc_in_one_value (elements : List (List (Text × Text))) (enc : Encodings) (values : List (List UInt8))
    (chain : List Der) :
    (elements ≠ [] → (∀ element ∈ elements, element ≠ [] ∧ ∀ pair ∈ element, IsKey pair.1) →
      readElements (writeElements elements) = .ok elements) ∧
    (xfcc enc values = .ok (some chain) →
      ∃ ts element, texts values xfccName = .ok ts ∧ readElements (joined ts) = .ok [element] ∧
        ((∃! i : Nat, ∃ value, values[i]? = some value ∧ HoldsElement element value) ↔ values.length = 1) ∧
        ∀ i, 0 < i → i < values.length → readElements (joined (ts.take i)) = .error .neverClosed) := by
  refine ⟨fun hne h => readElements_writeElements hne h, ?_⟩
  intro h
  obtain ⟨ts, element, hts, hblank, helement⟩ := element_of_xfcc h
  have hforall := forall₂_texts hts
  have hlength := hforall.length_eq
  refine ⟨ts, element, hts, helement, ⟨?_, ?_⟩, ?_⟩
  · rintro ⟨i, ⟨value, hvalue, hholds⟩, -⟩
    exact length_of_holdsElement hts helement hvalue hholds
  · intro hone
    obtain ⟨value, rfl⟩ := List.length_eq_one_iff.mp hone
    cases hforall with
    | cons hvalue hnil =>
      cases hnil
      have hjoined : ∀ text : Text, joined [text] = text := fun text => by simp [joined]
      rw [hjoined] at hblank helement
      refine ⟨0, ⟨value, rfl, _, hvalue, hblank, helement⟩, ?_⟩
      rintro i ⟨value', hi, -⟩
      have hlt := (List.getElem?_eq_some_iff.mp hi).1
      simpa using hlt
  · intro i hpos hi
    have hfirst : ts.take i ≠ [] := by
      rw [ne_eq, ← List.length_eq_zero_iff, List.length_take]
      omega
    have hlast : ts.drop i ≠ [] := by
      rw [ne_eq, ← List.length_eq_zero_iff, List.length_drop]
      omega
    have hsplit := joined_append hfirst hlast
    rw [List.take_append_drop] at hsplit
    rw [readElements, hsplit, trimStart_append_comma] at helement
    exact neverClosed_of_append_comma helement rfl

/-- A value's bytes. -/
def bytesOf (text : String) : List UInt8 := text.toList.map fun c => UInt8.ofNat c.toNat

/-- A certificate as a proxy writes it. -/
def pemValue : String := "-----BEGIN%20CERTIFICATE-----%0AMAA=%0A-----END%20CERTIFICATE-----%0A"

/-- What the PEM text of that certificate holds. -/
def onlyPem : Encodings := ⟨fun _ => .ok [], fun _ => ([("CERTIFICATE", [0x30, 0x00])], none)⟩

theorem xfcc_onlyPem {values : List (List UInt8)} {ts : List Text} {element : List (Text × Text)}
    (hts : texts values xfccName = .ok ts) (hblank : trimMatches ows (joined ts) ≠ [])
    (hread : readElements (joined ts) = .ok [element]) (hcert : once element "Cert".toList = .ok (some pemValue.toList))
    (hchain : once element "Chain".toList = .ok none) : xfcc onlyPem values = .ok (some [[0x30, 0x00]]) := by
  have hpem : ∃ pem, percentDecoded "Cert".toList pemValue.toList = .ok pem := ⟨_, rfl⟩
  obtain ⟨pem, hpem⟩ := hpem
  have hholds : pemCertificates "Cert".toList [] (onlyPem.pem pem) = .ok [[0x30, 0x00]] := by
    simp [onlyPem, pemCertificates]
  have hcerts : pemOf onlyPem element "Cert".toList = .ok (some [[0x30, 0x00]]) := by
    simp only [pemOf, hcert, bind, Except.bind, hpem, hholds]
    rfl
  have hnone : pemOf onlyPem element "Chain".toList = .ok none := by
    rw [pemOf, hchain]
    rfl
  rw [readElements] at hread
  rw [joined] at hread hblank
  simp only [xfcc, hts, bind, Except.bind, if_neg hblank, hread, hcerts, hnone]
  rfl

theorem isKey_of_all {key : Text} (h : (!key.isEmpty && key.all fun c => c.isAlphanum || c == '-') = true) : IsKey key := by
  simpa [IsKey] using h

/-- An element that holds the certificate, after another pair. -/
def pemElement (key value : String) : List (Text × Text) :=
  [(key.toList, value.toList), ("Cert".toList, pemValue.toList)]

theorem readElements_pemElement {key : String} (value : String) (h : IsKey key.toList) :
    readElements (writeElements [pemElement key value]) = .ok [pemElement key value] := by
  apply readElements_writeElements
  · simp
  · intro element helement
    rw [List.mem_singleton] at helement
    subst helement
    exact ⟨by simp [pemElement], List.forall_mem_cons.mpr ⟨h, List.forall_mem_singleton.mpr (isKey_of_all rfl)⟩⟩

/-- One value, that holds the element. -/
def oneValue : List (List UInt8) := [bytesOf ("By=\"x\";Cert=\"" ++ pemValue ++ "\"")]

/-- Two values, neither of which holds an element. -/
def twoValues : List (List UInt8) := [bytesOf "Subject=\"", bytesOf ("\";Cert=\"" ++ pemValue ++ "\"")]

theorem xfcc_oneValue : xfcc onlyPem oneValue = .ok (some [[0x30, 0x00]]) := by
  have hts : texts oneValue xfccName = .ok [("By=\"x\";Cert=\"" ++ pemValue ++ "\"").toList] := rfl
  have hjoined : joined [("By=\"x\";Cert=\"" ++ pemValue ++ "\"").toList] = writeElements [pemElement "By" "x"] := rfl
  have hread := @readElements_pemElement "By" "x" (isKey_of_all rfl)
  refine xfcc_onlyPem hts ?_ (hjoined ▸ hread) rfl rfl
  rw [hjoined]
  exact List.cons_ne_nil _ _

theorem xfcc_twoValues : xfcc onlyPem twoValues = .ok (some [[0x30, 0x00]]) := by
  have hjoined : joined ["Subject=\"".toList, ("\";Cert=\"" ++ pemValue ++ "\"").toList] =
      writeElements [pemElement "Subject" ","] := rfl
  have hts : texts twoValues xfccName =
      .ok ["Subject=\"".toList, ("\";Cert=\"" ++ pemValue ++ "\"").toList] := rfl
  have hread := @readElements_pemElement "Subject" "," (isKey_of_all rfl)
  refine xfcc_onlyPem hts ?_ (hjoined ▸ hread) rfl rfl
  rw [hjoined]
  exact List.cons_ne_nil _ _

theorem xfcc_in_one_value_by : ∃ element, ∃! i : Nat, ∃ value, oneValue[i]? = some value ∧ HoldsElement element value := by
  obtain ⟨ts, element, -, -, hone, -⟩ := (xfcc_in_one_value [] onlyPem oneValue _).2 xfcc_oneValue
  exact ⟨element, hone.mpr rfl⟩

/-- A chain is read from two values that a quoted value runs over, neither of which holds the element. -/
theorem not_xfcc_in_one_value :
    ¬ ∀ (enc : Encodings) (values : List (List UInt8)) (chain : List Der), xfcc enc values = .ok (some chain) →
      ∃ ts element, texts values xfccName = .ok ts ∧ readElements (joined ts) = .ok [element] ∧
        ∃! i : Nat, ∃ value, values[i]? = some value ∧ HoldsElement element value := by
  intro h
  obtain ⟨ts, element, hts, hread, i, ⟨value, hvalue, hholds⟩, -⟩ := h onlyPem twoValues _ xfcc_twoValues
  have hone := length_of_holdsElement hts hread hvalue hholds
  cases hone

end Mcpdef.Listener
