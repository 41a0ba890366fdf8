import Mcpdef.Policy.UriNormal

/-!
# Globs

One glob engine in two dialects: `names`, where `*` is any run of characters, and `UriGlob`, where `*` stays within a
segment of the path and a segment `**` is any run of segments.
-/

namespace Mcpdef.Policy

/-! ### Names -/

/-- Where `piece` first stands in a text. -/
def find (piece : List Char) : List Char → Option Nat
  | [] => if piece = [] then some 0 else none
  | c :: cs => if piece.isPrefixOf (c :: cs) then some 0 else (find piece cs).map (· + 1)

/-- Whether the pieces stand in `rest` in their order, each taken where it first does. -/
def takePieces : List (List Char) → List Char → Bool
  | [], _ => true
  | piece :: pieces, rest =>
    match find piece rest with
    | some start => takePieces pieces (rest.drop (start + piece.length))
    | none => false

/-- Whether `name` matches the glob `pattern`, as a whole. -/
def names (pattern name : List Char) : Bool :=
  match splitOnce '*' pattern with
  | none => pattern = name
  | some (first, afterFirst) =>
    let (middle, last) := (rsplitOnce '*' afterFirst).getD ([], afterFirst)
    match name.dropPrefix? first with
    | none => false
    | some rest =>
      match rest.dropSuffix? last with
      | none => false
      | some rest => takePieces ((middle.splitOn '*').filter (· ≠ [])) rest

/-! ### URIs -/

def star : List Char := ['*']

def doubleStar : List Char := ['*', '*']

inductive Shape
  | any
  | uri (uriPrefix : List Char) (runs : List (List (List Char))) (query fragment : Option (List Char))
deriving DecidableEq

/-- A resource-URI pattern. -/
structure UriGlob where
  source : List Char
  shape : Shape
deriving DecidableEq

/-- The pattern's segments in runs, one more at each `**`. -/
def runs (segments : List (List Char)) : List (List (List Char)) :=
  segments.foldl (fun rs s => if s = doubleStar then rs ++ [[]] else rs.modifyLast (· ++ [s])) [[]]

def UriGlob.new (pattern : List Char) : Except Refused UriGlob :=
  if pattern = star ∨ pattern = doubleStar then .ok ⟨pattern, .any⟩
  else
    match normalize pattern with
    | .error e => .error e
    | .ok normal =>
      .ok ⟨pattern, .uri normal.uriPrefix (runs (normal.path.splitOn '/')) normal.query normal.fragment⟩

/-- A query or a fragment: absent in both, or in both and matching. -/
def optional : Option (List Char) → Option (List Char) → Bool
  | none, none => true
  | some pattern, some part => names pattern part
  | _, _ => false

/-- One segment: an empty one is matched by an empty pattern only. -/
def segment (pattern s : List Char) : Bool := if s = [] then pattern = [] else names pattern s

/-- Whether `run` matches the segments from `start` on, which are there. -/
def runAt (run : List (List Char)) (start : Nat) (segments : List (List Char)) : Bool :=
  (run.zip (segments.drop start)).all fun (pattern, s) => segment pattern s

/-- Where `run` first matches within the segments from `start` to `stop`. -/
def leftmost (run : List (List Char)) (start stop : Nat) (segments : List (List Char)) : Option Nat :=
  if stop < run.length then none
  else (List.range' start (stop - run.length + 1 - start)).find? fun i => runAt run i segments

/-- Whether the runs fit in their order between `start` and `stop`, each taken where it first does. -/
def placeRuns : List (List (List Char)) → Nat → Nat → List (List Char) → Bool
  | [], _, _, _ => true
  | run :: middle, start, stop, segments =>
    match leftmost run start stop segments with
    | some i => placeRuns middle (i + run.length) stop segments
    | none => false

/-- Whether the segments match the runs: the first at the start, the last at the end, the others between. -/
def pathMatches (runs : List (List (List Char))) (segments : List (List Char)) : Bool :=
  match runs with
  | [] => segments.length = 0
  | first :: rest =>
    match rest.getLast? with
    | none => first.length = segments.length && runAt first 0 segments
    | some last =>
      if segments.length < first.length + last.length || !runAt first 0 segments then false
      else
        let tail := segments.length - last.length
        if !runAt last tail segments then false else placeRuns rest.dropLast first.length tail segments

/-- Whether a URI in normal form matches. -/
def UriGlob.matches (g : UriGlob) (u : Uri) : Bool :=
  match g.shape with
  | .any => true
  | .uri uriPrefix runs query fragment =>
    names uriPrefix u.uriPrefix && optional query u.query && optional fragment u.fragment &&
      pathMatches runs u.segments

/-! ### Literal patterns -/

theorem names_of_notMem {pattern name : List Char} (h : '*' ∉ pattern) (hm : names pattern name = true) :
    pattern = name := by
  rw [names, splitOnce_eq_none h] at hm
  simpa using hm

theorem segment_of_notMem {pattern s : List Char} (h : '*' ∉ pattern) (hm : segment pattern s = true) :
    pattern = s := by
  unfold segment at hm
  split_ifs at hm with hs
  · rw [hs]
    simpa using hm
  · exact names_of_notMem h hm

/-- A run of literal segments matches only itself. -/
theorem take_eq_of_runAt {run segments : List (List Char)} (h : ∀ p ∈ run, '*' ∉ p)
    (hlen : run.length ≤ segments.length) (hm : runAt run 0 segments = true) :
    segments.take run.length = run := by
  unfold runAt at hm
  rw [List.drop_zero] at hm
  induction run generalizing segments with
  | nil => rfl
  | cons p run ih =>
    cases segments with
    | nil => simp at hlen
    | cons s segments =>
      rw [List.forall_mem_cons] at h
      rw [List.zip_cons_cons, List.all_cons, Bool.and_eq_true] at hm
      rw [List.length_cons, List.take_succ_cons, ih h.2 (by simpa using hlen) hm.2, segment_of_notMem h.1 hm.1]

theorem runs_of_notMem {segments : List (List Char)} (h : doubleStar ∉ segments) : runs segments = [segments] := by
  suffices hrun : ∀ run, segments.foldl
      (fun rs s => if s = doubleStar then rs ++ [[]] else rs.modifyLast (· ++ [s])) [run] = [run ++ segments] from
    hrun []
  induction segments with
  | nil => simp
  | cons s segments ih =>
    intro run
    rw [List.mem_cons, not_or] at h
    rw [List.foldl_cons, if_neg (Ne.symm h.1)]
    exact (ih h.2 (run ++ [s])).trans (by simp)

theorem runs_concat_doubleStar {segments : List (List Char)} (h : doubleStar ∉ segments) :
    runs (segments ++ [doubleStar]) = [segments, []] := by
  have hs := runs_of_notMem h
  unfold runs at hs ⊢
  rw [List.foldl_append, hs]
  simp

end Mcpdef.Policy
