import Mathlib

/-!
# Backslash escapes

Texts in which a backslash takes a character's meaning away.  `escape` puts one before every reserved character; `cut`
and `cutAll` end a text at a stop that no backslash stands before, and `unescape` takes the escapes for what they mean.

An escaped text is cut at the stop after it, whatever it holds, and read back as it was (`cut_escape_append`,
`cutAll_escape_append`, `unescape_escape`).
-/

namespace Escape

/-- A text in place of every occurrence of a character. -/
def replaceChar (c : Char) (new : List Char) (text : List Char) : List Char :=
  text.flatMap fun d => if d = c then new else [d]

/-- A backslash before each reserved character. -/
def escape (reserved : List Char) (text : List Char) : List Char :=
  text.flatMap fun c => if c ∈ reserved then ['\\', c] else [c]

/-- The text before the first stop with no backslash before it, escapes and all, and the text after it. -/
def cut (stop : Char) : List Char → Option (List Char × List Char)
  | [] => none
  | '\\' :: c :: cs => (cut stop cs).map fun p => ('\\' :: c :: p.1, p.2)
  | c :: cs => if c = stop then some ([], cs) else (cut stop cs).map fun p => (c :: p.1, p.2)

/-- The texts between the stops with no backslash before them, escapes and all. -/
def cutAll (stop : Char) : List Char → List (List Char)
  | [] => [[]]
  | '\\' :: c :: cs => (cutAll stop cs).modifyHead fun text => '\\' :: c :: text
  | c :: cs => if c = stop then [] :: cutAll stop cs else (cutAll stop cs).modifyHead (c :: ·)

/-- The text with its escapes taken for what they mean, where they mean anything. -/
def unescape (meaning : Char → Option Char) : List Char → List Char
  | [] => []
  | '\\' :: c :: cs =>
    match meaning c with
    | some d => d :: unescape meaning cs
    | none => '\\' :: c :: unescape meaning cs
  | c :: cs => c :: unescape meaning cs

variable {reserved text : List Char} {stop : Char}

/-! ### Writing -/

@[simp] theorem escape_nil : escape reserved [] = [] := rfl

theorem escape_cons (c : Char) (cs : List Char) :
    escape reserved (c :: cs) = (if c ∈ reserved then ['\\', c] else [c]) ++ escape reserved cs := rfl

theorem escape_append (as bs : List Char) : escape reserved (as ++ bs) = escape reserved as ++ escape reserved bs :=
  List.flatMap_append

theorem escape_of_forall (h : ∀ c ∈ text, c ∉ reserved) : escape reserved text = text := by
  induction text with
  | nil => rfl
  | cons c cs ih =>
    rw [List.forall_mem_cons] at h
    rw [escape_cons, if_neg h.1, ih h.2]
    rfl

/-- What an escaped text holds is a backslash or of the text. -/
theorem mem_of_mem_escape {c : Char} (h : c ∈ escape reserved text) : c = '\\' ∨ c ∈ text := by
  obtain ⟨d, hd, hc⟩ := List.mem_flatMap.mp h
  split_ifs at hc
  · simp only [List.mem_cons, List.not_mem_nil, or_false] at hc
    rcases hc with rfl | rfl
    · exact .inl rfl
    · exact .inr hd
  · rw [List.mem_singleton] at hc
    exact .inr (hc ▸ hd)

theorem escape_backslash : replaceChar '\\' ['\\', '\\'] text = escape ['\\'] text := by
  refine List.flatMap_congr fun d _ => ?_
  simp only [List.mem_singleton]
  split_ifs with h
  · rw [h]
  · rfl

/-- One more reserved character is escaped by one more replacement. -/
theorem escape_concat {c : Char} (hc : c ∉ reserved) (hb : c ≠ '\\') :
    replaceChar c ['\\', c] (escape reserved text) = escape (reserved ++ [c]) text := by
  rw [replaceChar, escape, escape, List.flatMap_assoc]
  refine List.flatMap_congr fun d _ => ?_
  by_cases hd : d ∈ reserved
  · have hne : d ≠ c := fun h => hc (h ▸ hd)
    simp [hd, hne, Ne.symm hb]
  · by_cases hdc : d = c
    · simp [hdc, hc]
    · simp [hd, hdc]

/-! ### Reading -/

theorem cut_backslash (c : Char) (cs : List Char) :
    cut stop ('\\' :: c :: cs) = (cut stop cs).map fun p => ('\\' :: c :: p.1, p.2) := by
  rw [cut]

theorem cut_cons {c : Char} (h : c ≠ '\\') (cs : List Char) :
    cut stop (c :: cs) = if c = stop then some ([], cs) else (cut stop cs).map fun p => (c :: p.1, p.2) := by
  rw [cut]
  rintro d ds rfl
  exact absurd rfl h

theorem cutAll_cons {c : Char} (h : c ≠ '\\') (cs : List Char) :
    cutAll stop (c :: cs) = if c = stop then [] :: cutAll stop cs else (cutAll stop cs).modifyHead (c :: ·) := by
  rw [cutAll]
  rintro d ds rfl
  exact absurd rfl h

theorem unescape_cons (meaning : Char → Option Char) {c : Char} (h : c ≠ '\\') (cs : List Char) :
    unescape meaning (c :: cs) = c :: unescape meaning cs := by
  rw [unescape]
  rintro d ds rfl
  exact absurd rfl h

section Escaped

variable (hback : '\\' ∈ reserved) (hstop : stop ∈ reserved) (hne : stop ≠ '\\')

include hback hstop hne

theorem cut_escape_append (text rest : List Char) :
    cut stop (escape reserved text ++ stop :: rest) = some (escape reserved text, rest) := by
  induction text with
  | nil => rw [escape_nil, List.nil_append, cut_cons hne, if_pos rfl]
  | cons c cs ih =>
    rw [escape_cons]
    split_ifs with hc
    · simp only [List.cons_append, List.nil_append]
      rw [cut_backslash, ih, Option.map_some]
    · have hcb : c ≠ '\\' := fun h => hc (h ▸ hback)
      have hcs : c ≠ stop := fun h => hc (h ▸ hstop)
      simp only [List.cons_append, List.nil_append]
      rw [cut_cons hcb, if_neg hcs, ih, Option.map_some]

theorem cutAll_escape_append (text rest : List Char) :
    cutAll stop (escape reserved text ++ stop :: rest) = escape reserved text :: cutAll stop rest := by
  induction text with
  | nil => rw [escape_nil, List.nil_append, cutAll_cons hne, if_pos rfl]
  | cons c cs ih =>
    rw [escape_cons]
    split_ifs with hc
    · simp only [List.cons_append, List.nil_append]
      rw [cutAll, ih, List.modifyHead_cons]
    · have hcb : c ≠ '\\' := fun h => hc (h ▸ hback)
      have hcs : c ≠ stop := fun h => hc (h ▸ hstop)
      simp only [List.cons_append, List.nil_append]
      rw [cutAll_cons hcb, if_neg hcs, ih, List.modifyHead_cons]

omit hne in
theorem cutAll_escape (text : List Char) : cutAll stop (escape reserved text) = [escape reserved text] := by
  induction text with
  | nil => rfl
  | cons c cs ih =>
    rw [escape_cons]
    split_ifs with hc
    · simp only [List.cons_append, List.nil_append]
      rw [cutAll, ih, List.modifyHead_cons]
    · have hcb : c ≠ '\\' := fun h => hc (h ▸ hback)
      have hcs : c ≠ stop := fun h => hc (h ▸ hstop)
      simp only [List.cons_append, List.nil_append]
      rw [cutAll_cons hcb, if_neg hcs, ih, List.modifyHead_cons]

end Escaped

/-- An escaped text is read back, where the escapes of the reserved characters mean these. -/
theorem unescape_escape (hback : '\\' ∈ reserved) {meaning : Char → Option Char}
    (hmeaning : ∀ c ∈ reserved, meaning c = some c) (text : List Char) :
    unescape meaning (escape reserved text) = text := by
  induction text with
  | nil => rfl
  | cons c cs ih =>
    rw [escape_cons]
    split_ifs with hc
    · simp only [List.cons_append, List.nil_append]
      rw [unescape, hmeaning c hc, ih]
    · have hcb : c ≠ '\\' := fun h => hc (h ▸ hback)
      simp only [List.cons_append, List.nil_append]
      rw [unescape_cons meaning hcb, ih]

end Escape
