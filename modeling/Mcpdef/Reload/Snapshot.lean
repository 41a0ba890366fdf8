import Mcpdef.Audit.Sealed
import Mcpdef.Lib.Framed
import Mcpdef.Reload.Config

/-!
# What a config was read from

The digest of a config's text and of each file it reads.  Two reads have one digest if the text is the same in both, or
read in neither, and each of the files is the same, or in neither (`digest_eq_iff`).

The hash and the reading of a config's text are parameters.
-/

namespace Mcpdef.Reload

open Audit ByteText Framed Listener

/-- What a read finds: the config's text, if it reads, and every file that does. -/
structure Content where
  text : Option Bytes
  disk : Text → Option Bytes
  text_fits : ∀ bs ∈ text, Fits bs
  disk_fits : ∀ path, ∀ bs ∈ disk path, Fits bs

variable (sha256 : Bytes → Bytes)

/-- The digest of a file's content, or of its absence. -/
def fileDigest (disk : Text → Option Bytes) (path : Text) : String := hexEncode (sha256 (part (disk path)))

/-- What is hashed for a snapshot. -/
def preimage (text : Option Bytes) (config : Option Config) (disk : Text → Option Bytes) : Bytes :=
  encode "mcpdef-config/1".toList ++ (part text ++
    ((config.map Config.referencedFiles).getD []).flatMap fun path =>
      part (some (encode path)) ++ part (some (encode (fileDigest sha256 disk path).toList)))

structure Snapshot where
  digest : String
  /-- The digest of each file the config names, by its path. -/
  files : List (Text × String)

/-- No text is a config that could not be read, and no config one that did not parse. -/
def Snapshot.of (text : Option Bytes) (config : Option Config) (disk : Text → Option Bytes) : Snapshot where
  digest := "sha256:" ++ hexEncode (sha256 (preimage sha256 text config disk))
  files := ((config.map Config.referencedFiles).getD []).map fun path => (path, fileDigest sha256 disk path)

variable (parse : Text → Except String Config) (profile : Option String)

/-- The config of a text, with a `--profile` on top. -/
def parsed (c : Content) : Except String Config :=
  match c.text with
  | none => .error "reading"
  | some bytes =>
    match decode bytes with
    | none => .error "parsing"
    | some text => (parse text).map fun config => { config with profile := profile.or config.profile }

/-- The snapshot of a read. -/
def snapshot (c : Content) : Snapshot := .of sha256 c.text (parsed parse profile c).toOption c.disk

/-! ### Same content -/

/-- The files that the config of a read names, as input. -/
def Content.files (c : Content) : List Text := ((parsed parse profile c).toOption.map Config.referencedFiles).getD []

/-- Two reads of the same: one text, or none, and each file that it reads the same in both, or absent. -/
def Same (c d : Content) : Prop :=
  c.text = d.text ∧ ∀ path ∈ c.files parse profile, c.disk path = d.disk path

/-- What is hashed for a read. -/
def Content.hashed (c : Content) : List Bytes :=
  preimage sha256 c.text (parsed parse profile c).toOption c.disk ::
    (c.files parse profile).map fun path => part (c.disk path)

variable {sha256 parse profile} {c d : Content}

theorem parsed_congr (h : c.text = d.text) : parsed parse profile c = parsed parse profile d := by
  rw [parsed, parsed, h]

theorem files_congr (h : c.text = d.text) : c.files parse profile = d.files parse profile := by
  rw [Content.files, Content.files, parsed_congr h]

/-- The same content is a matter of what is read: it is an equivalence. -/
theorem Same.refl (c : Content) : Same parse profile c c := ⟨rfl, fun _ _ => rfl⟩

theorem Same.symm (h : Same parse profile c d) : Same parse profile d c :=
  ⟨h.1.symm, fun path hpath => (h.2 path (files_congr h.1 ▸ hpath)).symm⟩

theorem Same.trans {e : Content} (h : Same parse profile c d) (h' : Same parse profile d e) : Same parse profile c e :=
  ⟨h.1.trans h'.1, fun path hpath => (h.2 path hpath).trans (h'.2 path (files_congr h.1 ▸ hpath))⟩

theorem preimage_of_same (h : Same parse profile c d) :
    preimage sha256 c.text (parsed parse profile c).toOption c.disk =
      preimage sha256 d.text (parsed parse profile d).toOption d.disk := by
  rw [preimage, preimage, parsed_congr h.1, h.1]
  congr 2
  refine List.flatMap_congr fun path hpath => ?_
  have hfile := h.2 path (by rw [files_congr h.1]; exact hpath)
  rw [fileDigest, fileDigest, hfile]

/-- The same is hashed for reads of the same. -/
theorem hashed_of_same (h : Same parse profile c d) : c.hashed sha256 parse profile = d.hashed sha256 parse profile := by
  rw [Content.hashed, Content.hashed, preimage_of_same h, files_congr h.1]
  congr 1
  refine List.map_congr_left fun path hpath => ?_
  rw [h.2 path (files_congr h.1 ▸ hpath)]

theorem length_encode_hexEncode (bs : Bytes) : (encode (hexEncode bs).toList).length = 2 * bs.length := by
  have hdigit : ∀ n < 16, (String.utf8EncodeChar n.digitChar).length = 1 := by decide
  rw [hexEncode, String.toList_ofList]
  induction bs with
  | nil => rfl
  | cons b bs ih =>
    have hb := b.toNat_lt
    have h1 := hdigit (b.toNat / 16) (by omega)
    have h2 := hdigit (b.toNat % 16) (by omega)
    simp only [encode, List.flatMap_cons, List.flatMap_append, List.flatMap_nil, List.append_nil, List.length_append,
      h1, h2, List.length_cons] at ih ⊢
    omega

/-- The digest of a file is short. -/
theorem fits_fileDigest (hsha : ∀ bs, (sha256 bs).length = 32) (disk : Text → Option Bytes) (path : Text) :
    Fits (encode (fileDigest sha256 disk path).toList) := by
  rw [Fits, fileDigest, length_encode_hexEncode, hsha]
  decide

/-- Files that are read alike have one digest each. -/
theorem fileDigest_of_flatMap (hsha : ∀ bs, (sha256 bs).length = 32) {disk disk' : Text → Option Bytes}
    {paths : List Text}
    (h : (paths.flatMap fun path => part (some (encode path)) ++ part (some (encode (fileDigest sha256 disk path).toList))) =
      paths.flatMap fun path => part (some (encode path)) ++ part (some (encode (fileDigest sha256 disk' path).toList))) :
    ∀ path ∈ paths, fileDigest sha256 disk path = fileDigest sha256 disk' path := by
  induction paths with
  | nil => simp
  | cons path paths ih =>
    rw [List.flatMap_cons, List.flatMap_cons, List.append_assoc, List.append_assoc] at h
    have hdigest := List.append_cancel_left h
    rw [part_append_inj (by simpa using fits_fileDigest hsha disk path)
      (by simpa using fits_fileDigest hsha disk' path)] at hdigest
    rw [List.forall_mem_cons]
    refine ⟨?_, ih hdigest.2⟩
    have htext := encode_injective (Option.some_inj.mp hdigest.1)
    exact String.toList_injective htext

/-- Two reads have one digest if they are of the same. -/
theorem digest_eq_iff (hsha : ∀ bs, (sha256 bs).length = 32)
    (hfree : CollisionFree sha256 (c.hashed sha256 parse profile ++ d.hashed sha256 parse profile)) :
    (snapshot sha256 parse profile c).digest = (snapshot sha256 parse profile d).digest ↔ Same parse profile c d := by
  constructor
  · intro h
    have hhash : sha256 (preimage sha256 c.text (parsed parse profile c).toOption c.disk) =
        sha256 (preimage sha256 d.text (parsed parse profile d).toOption d.disk) := by
      apply hexEncode_injective
      simpa [snapshot, Snapshot.of] using h
    have hpreimage := hfree _ (by simp [Content.hashed]) _ (by simp [Content.hashed]) hhash
    have hparts := List.append_cancel_left hpreimage
    obtain ⟨htext, hfiles⟩ := (part_append_inj c.text_fits d.text_fits).mp hparts
    rw [parsed_congr htext] at hfiles
    refine ⟨htext, ?_⟩
    intro path hpath
    have hpath' : path ∈ d.files parse profile := files_congr htext ▸ hpath
    have hdigest := fileDigest_of_flatMap hsha hfiles path hpath'
    have hpart := hfree (part (c.disk path))
      (List.mem_append_left _ (List.mem_cons_of_mem _ (List.mem_map_of_mem hpath))) (part (d.disk path))
      (List.mem_append_right _ (List.mem_cons_of_mem _ (List.mem_map_of_mem hpath'))) (hexEncode_injective hdigest)
    have hpart' : part (c.disk path) ++ [] = part (d.disk path) ++ [] := by rw [hpart]
    exact ((part_append_inj (c.disk_fits path) (d.disk_fits path)).mp hpart').1
  · intro h
    rw [snapshot, snapshot, Snapshot.of, Snapshot.of, preimage_of_same h]

end Mcpdef.Reload
