import Mcpdef.Audit.Ledger
import Mcpdef.Audit.RecordJson
import Mcpdef.Lib.JsonLayout
import Mcpdef.Lib.NameMap
import Mcpdef.Lib.Transition

/-!
# The console's sessions

A session is sealed into a cookie that the browser keeps, so that the gateway holds nothing of it but the key, and which
sessions were signed out of before they ended.  A cookie once sealed is out for good: what keeps it from opening is the
end it names, its age, and the gateway's memory of the sign-out, which a restart loses.

The cipher is a parameter, and a run takes it that a cookie opens only as it was sealed: with that key, for that cookie.
In such a run what opens is a session that was begun, within its bounds, and not signed out of since the gateway started
(`open_lawful`).
-/

namespace Mcpdef.Admin

open JsonText Audit Transition

variable {φ κ α : Type}

/-! ### Sessions -/

/-- The name of the session's cookie. -/
def cookieName : String := "__Host-mcpdef-session"

/-- The longest a session lasts, in seconds. -/
def absolute : UInt64 := 8 * 60 * 60

/-- How long a session lasts unused. -/
def idle : UInt64 := 30 * 60

/-- How old a session's `seen` grows before it is sealed again. -/
def renewAfter : UInt64 := 5 * 60

/-- Who signed in, and when the session began, ends, and was last sealed. -/
structure Session where
  sid : String
  iss : String
  sub : String
  name : Option String
  roles : List String
  iat : UInt64
  exp : UInt64
  seen : UInt64
deriving DecidableEq

def Session.toJson (s : Session) : Value φ :=
  .object [("sid", .string s.sid), ("iss", .string s.iss), ("sub", .string s.sub),
    ("name", (s.name.map Value.string).getD .null), ("roles", .array (s.roles.map .string)), ("iat", u64Value s.iat),
    ("exp", u64Value s.exp), ("seen", u64Value s.seen)]

def Session.ofJson : Value φ → Option Session
  | .object ms => do
    let sid ← required asString ms "sid"
    let iss ← required asString ms "iss"
    let sub ← required asString ms "sub"
    let name ← optional asString ms "name"
    let roles ← required asStrings ms "roles"
    let iat ← required asU64 ms "iat"
    let exp ← required asU64 ms "exp"
    let seen ← required asU64 ms "seen"
    return { sid, iss, sub, name, roles, iat, exp, seen }
  | .array [sid, iss, sub, name, roles, iat, exp, seen] => do
    return { sid := ← asString sid, iss := ← asString iss, sub := ← asString sub,
             name := ← if name.isNull then some none else (asString name).map some, roles := ← asStrings roles,
             iat := ← asU64 iat, exp := ← asU64 exp, seen := ← asU64 seen }
  | _ => none

/-- What is sealed of a session. -/
def Session.text (codec : FloatCodec φ) (s : Session) : List Char := print codec s.toJson

/-- The session that a text is. -/
def Session.ofText (codec : FloatCodec φ) (text : List Char) : Option Session := (read codec text).bind Session.ofJson

/-- A new session. -/
def Session.begin (sid iss sub : String) (name : Option String) (roles : List String) (now : UInt64) : Session :=
  ⟨sid, iss, sub, name, roles, now, now + absolute, now⟩

/-- The session sealed again, once its `seen` is old enough. -/
def Session.renewed (s : Session) (now : UInt64) : Option Session :=
  if now < s.seen + renewAfter then none else some { s with seen := now }

theorem Session.ofJson_toJson (s : Session) : Session.ofJson (s.toJson : Value φ) = some s := by
  obtain ⟨sid, iss, sub, name, roles, iat, exp, seen⟩ := s
  cases name <;>
    simp [Session.toJson, Session.ofJson, required, Audit.optional, member, asString, asU64, u64Value, asStrings_map]

theorem Session.ofText_text (codec : FloatCodec φ) (s : Session) : Session.ofText codec (s.text codec) = some s := by
  have hfits : Fits 2 (s.toJson : Value φ) := by
    obtain ⟨sid, iss, sub, name, roles, iat, exp, seen⟩ := s
    cases name <;> simp [Session.toJson, Fits, u64Value]
  rw [Session.ofText, Session.text, read_print hfits (by decide), Option.bind_some, Session.ofJson_toJson]

/-! ### Sealing and opening -/

/-- What sessions are sealed with: the AEAD, which takes a key, a nonce, the associated data and a text, and base64. -/
structure Cipher (κ : Type) where
  seals : κ → List UInt8 → String → List Char → List UInt8
  opens : κ → List UInt8 → String → List UInt8 → Option (List Char)
  encode : List UInt8 → List Char
  decode : List Char → Option (List UInt8)

def nonceLen : Nat := 12

/-- Why a cookie holds no session. -/
inductive Refused
  | forged
  | expired
  | idle
  | signedOut
deriving DecidableEq

/-- The key that seals, the one before it, which only opens, and the sessions signed out of. -/
structure Sessions (κ : Type) where
  key : κ
  previous : Option κ
  signedOut : List (String × UInt64)

def Sessions.new (key : κ) (previous : Option κ) : Sessions κ := ⟨key, previous, []⟩

def Sessions.keys (s : Sessions κ) : List κ := s.key :: s.previous.toList

/-- A text sealed for a cookie. -/
def Sessions.sealAs (c : Cipher κ) (s : Sessions κ) (nonce : List UInt8) (cookie : String) (plain : List Char) :
    List Char :=
  c.encode (nonce ++ c.seals s.key nonce cookie plain)

/-- A text without the space around it. -/
def trim (text : List Char) : List Char :=
  ((text.dropWhile isWhitespace).reverse.dropWhile isWhitespace).reverse

/-- The nonce and the ciphertext of a cookie's value. -/
def unboxed (c : Cipher κ) (text : List Char) : Option (List UInt8 × List UInt8) := do
  let bytes ← c.decode (trim text)
  if bytes.length < nonceLen then none else some (bytes.splitAt nonceLen)

/-- What is sealed for a cookie, if one of the keys sealed it. -/
def Sessions.openAs (c : Cipher κ) (s : Sessions κ) (cookie : String) (ofText : List Char → Option α)
    (text : List Char) : Option α :=
  (unboxed c text).bind fun (nonce, box) => s.keys.findSome? fun key => (c.opens key nonce cookie box).bind ofText

def Sessions.sealSession (c : Cipher κ) (codec : FloatCodec φ) (s : Sessions κ) (nonce : List UInt8)
    (session : Session) : List Char :=
  s.sealAs c nonce cookieName (session.text codec)

def Sessions.isSignedOut (s : Sessions κ) (sid : String) : Bool := (s.signedOut.lookup sid).isSome

/-- The session that a cookie's value seals, if it has not ended, gone idle or been signed out of. -/
def Sessions.openSession (c : Cipher κ) (codec : FloatCodec φ) (s : Sessions κ) (text : List Char) (now : UInt64) :
    Except Refused Session :=
  match s.openAs c cookieName (Session.ofText codec) text with
  | none => .error .forged
  | some session =>
    if session.exp ≤ now then .error .expired
    else if session.seen + idle ≤ now then .error .idle
    else if s.isSignedOut session.sid then .error .signedOut
    else .ok session

/-- Sign a session out, and let those go that have ended since they were. -/
def Sessions.signOut (s : Sessions κ) (session : Session) (now : UInt64) : Sessions κ :=
  { s with signedOut := NameMap.set session.sid session.exp (s.signedOut.filter fun e => now < e.2) }

/-! ### Runs -/

/-- One sealing: with which key and nonce, for which cookie, of which text, and what came out. -/
structure Sealing (κ : Type) where
  key : κ
  nonce : List UInt8
  cookie : String
  plain : List Char
  box : List UInt8

/-- The sessions' state with the time, the sessions begun, those the gateway came to hold, all that was sealed, and the
`sid`s that were signed out: ever, and since the gateway started. -/
structure Running (κ : Type) where
  sessions : Sessions κ
  clock : UInt64
  begun : List Session
  held : List Session
  log : List (Sealing κ)
  ended : List String
  endedHere : List String

/-- What is done with the sessions.  A restart may come with other keys. -/
inductive Action (κ : Type)
  | begins (sid iss sub : String) (name : Option String) (roles : List String) (now : UInt64)
  | seals (nonce : List UInt8) (session : Session)
  | sealsFor (nonce : List UInt8) (cookie : String) (plain : List Char)
  | renews (nonce : List UInt8) (session : Session) (now : UInt64)
  | opens (text : List Char) (now : UInt64)
  | signsOut (session : Session) (now : UInt64)
  | restarts (key : κ) (previous : Option κ) (now : UInt64)

def start (key : κ) (previous : Option κ) (now : UInt64) : Running κ :=
  ⟨.new key previous, now, [], [], [], [], []⟩

/-- A text sealed for a cookie with the key that seals. -/
def Running.sealing (c : Cipher κ) (r : Running κ) (nonce : List UInt8) (cookie : String) (plain : List Char) :
    Running κ :=
  { r with log := ⟨r.sessions.key, nonce, cookie, plain, c.seals r.sessions.key nonce cookie plain⟩ :: r.log }

/-- A session that the gateway came to hold. -/
def Running.hold (r : Running κ) (session : Session) (now : UInt64) : Running κ :=
  { r with clock := now, held := session :: r.held }

def step (c : Cipher κ) (codec : FloatCodec φ) (r : Running κ) : Action κ → Option (Running κ)
  | .begins sid iss sub name roles now =>
    let session := Session.begin sid iss sub name roles now
    if r.clock ≤ now then some { r.hold session now with begun := session :: r.begun } else none
  | .seals nonce session =>
    if session ∈ r.held then some (r.sealing c nonce cookieName (session.text codec)) else none
  | .sealsFor nonce cookie plain => if cookie ≠ cookieName then some (r.sealing c nonce cookie plain) else none
  | .renews nonce session now =>
    if session ∈ r.held ∧ r.clock ≤ now then
      match session.renewed now with
      | some fresh => some ((r.hold fresh now).sealing c nonce cookieName (fresh.text codec))
      | none => some { r with clock := now }
    else none
  | .opens text now =>
    if r.clock ≤ now then
      match r.sessions.openSession c codec text now with
      | .ok session => some (r.hold session now)
      | .error _ => some { r with clock := now }
    else none
  | .signsOut session now =>
    if session ∈ r.held ∧ r.clock ≤ now then
      some { r with sessions := r.sessions.signOut session now, clock := now, ended := session.sid :: r.ended,
                    endedHere := session.sid :: r.endedHere }
    else none
  | .restarts key previous now =>
    if r.clock ≤ now then some { r with sessions := .new key previous, clock := now, endedHere := [] } else none

/-- A text opens with a key and for a cookie only if it was sealed, and only as it was. -/
def Genuine (c : Cipher κ) (log : List (Sealing κ)) (text : List Char) : Prop :=
  ∀ nonce box, unboxed c text = some (nonce, box) → ∀ key cookie plain, c.opens key nonce cookie box = some plain →
    (∃ e ∈ log, e.nonce = nonce ∧ e.box = box) ∧
    ∀ e ∈ log, e.nonce = nonce → e.box = box → e.key = key ∧ e.cookie = cookie ∧ e.plain = plain

/-- The `sid`s are fresh, and no cookie is forged. -/
def Sound (c : Cipher κ) (r : Running κ) : Action κ → Running κ → Prop
  | .begins sid .., _ => ∀ b ∈ r.begun, b.sid ≠ sid
  | .opens text _, _ => Genuine c r.log text
  | _, _ => True

/-! ### What opens -/

variable {c : Cipher κ} {codec : FloatCodec φ} {r r' : Running κ} {session : Session} {text : List Char} {now : UInt64}

theorem Sessions.openAs_eq_some {s : Sessions κ} {cookie : String} {ofText : List Char → Option α} {v : α}
    (h : s.openAs c cookie ofText text = some v) :
    ∃ nonce box key plain, unboxed c text = some (nonce, box) ∧ c.opens key nonce cookie box = some plain ∧
      ofText plain = some v := by
  obtain ⟨⟨nonce, box⟩, hbox, h⟩ := Option.bind_eq_some_iff.mp h
  obtain ⟨key, -, h⟩ := List.exists_of_findSome?_eq_some h
  obtain ⟨plain, hplain, h⟩ := Option.bind_eq_some_iff.mp h
  exact ⟨nonce, box, key, plain, hbox, hplain, h⟩

theorem Sessions.openSession_eq_ok {s : Sessions κ} (h : s.openSession c codec text now = .ok session) :
    s.openAs c cookieName (Session.ofText codec) text = some session ∧ now < session.exp ∧ now < session.seen + idle ∧
      s.isSignedOut session.sid = false := by
  unfold Sessions.openSession at h
  split at h
  · cases h
  · next opened hopened =>
    split_ifs at h with hexp hidle hout
    cases h
    exact ⟨hopened, UInt64.not_le.mp hexp, UInt64.not_le.mp hidle, by simpa using hout⟩

/-- A session that another one is, but for when it was last sealed. -/
def Session.Continues (s b : Session) : Prop := s = { b with seen := s.seen }

/-- What holds of the sessions begun, held, sealed and signed out of. -/
structure Kept (codec : FloatCodec φ) (r : Running κ) : Prop where
  distinct : ∀ b ∈ r.begun, ∀ b' ∈ r.begun, b.sid = b'.sid → b = b'
  lasts : ∀ b ∈ r.begun, b.exp = b.iat + absolute
  held : ∀ s ∈ r.held, s.seen ≤ r.clock ∧ ∃ b ∈ r.begun, s.Continues b
  sealed : ∀ e ∈ r.log, e.cookie = cookieName → ∃ s ∈ r.held, e.plain = s.text codec
  known : ∀ sid ∈ r.endedHere, ∃ b ∈ r.begun, b.sid = sid
  ended : ∀ b ∈ r.begun, b.sid ∈ r.endedHere → b.exp ≤ r.clock ∨ r.sessions.signedOut.lookup b.sid = some b.exp

theorem kept_start (key : κ) (previous : Option κ) (now : UInt64) : Kept codec (start key previous now) :=
  ⟨by simp [start], by simp [start], by simp [start], by simp [start], by simp [start], by simp [start]⟩

/-- What opens, of what was sealed as a session, is a session held before. -/
theorem Kept.mem_held (hr : Kept codec r) (hg : Genuine c r.log text)
    (h : r.sessions.openAs c cookieName (Session.ofText codec) text = some session) :
    session ∈ r.held ∧
      ∃ e ∈ r.log, unboxed c text = some (e.nonce, e.box) ∧ e.cookie = cookieName ∧ e.plain = session.text codec := by
  obtain ⟨nonce, box, key, plain, hbox, hplain, hof⟩ := Sessions.openAs_eq_some h
  obtain ⟨⟨e, he, hnonce, hebox⟩, hall⟩ := hg nonce box hbox key cookieName plain hplain
  obtain ⟨-, hcookie, heplain⟩ := hall e he hnonce hebox
  obtain ⟨s, hs, hstext⟩ := hr.sealed e he hcookie
  rw [heplain] at hstext
  rw [hstext, Session.ofText_text] at hof
  cases hof
  exact ⟨hs, e, he, by rw [hbox, hnonce, hebox], hcookie, heplain.trans hstext⟩

/-- Time passes, and a session is held that continues one that was begun. -/
theorem Kept.hold (hr : Kept codec r) (hnow : r.clock ≤ now) (hseen : session.seen ≤ now)
    (hb : ∃ b ∈ r.begun, session.Continues b) : Kept codec (r.hold session now) where
  distinct := hr.distinct
  lasts := hr.lasts
  held := by
    intro s hs
    rcases List.mem_cons.mp hs with rfl | hs
    · exact ⟨hseen, hb⟩
    · exact ⟨UInt64.le_trans (hr.held s hs).1 hnow, (hr.held s hs).2⟩
  sealed := fun e he hcookie =>
    let ⟨s, hs, htext⟩ := hr.sealed e he hcookie
    ⟨s, List.mem_cons_of_mem _ hs, htext⟩
  known := hr.known
  ended := fun b hb hsid => (hr.ended b hb hsid).imp_left fun h => UInt64.le_trans h hnow

theorem Kept.passes (hr : Kept codec r) (hnow : r.clock ≤ now) : Kept codec { r with clock := now } where
  distinct := hr.distinct
  lasts := hr.lasts
  held := fun s hs => ⟨UInt64.le_trans (hr.held s hs).1 hnow, (hr.held s hs).2⟩
  sealed := hr.sealed
  known := hr.known
  ended := fun b hb hsid => (hr.ended b hb hsid).imp_left fun h => UInt64.le_trans h hnow

/-- Sealing for another cookie, or a session that is held. -/
theorem Kept.sealing (hr : Kept codec r) {nonce : List UInt8} {cookie : String} {plain : List Char}
    (h : cookie = cookieName → ∃ s ∈ r.held, plain = s.text codec) : Kept codec (r.sealing c nonce cookie plain) where
  distinct := hr.distinct
  lasts := hr.lasts
  held := hr.held
  sealed := by
    intro e he hcookie
    rcases List.mem_cons.mp he with rfl | he
    · exact h hcookie
    · exact hr.sealed e he hcookie
  known := hr.known
  ended := hr.ended

theorem Kept.begins (hr : Kept codec r) (hnow : r.clock ≤ now) {sid iss sub : String} {name : Option String}
    {roles : List String} (hsid : ∀ b ∈ r.begun, b.sid ≠ sid) :
    Kept codec { r.hold (.begin sid iss sub name roles now) now with
      begun := .begin sid iss sub name roles now :: r.begun } where
  distinct := by
    intro b hb b' hb' heq
    rcases List.mem_cons.mp hb with rfl | hb <;> rcases List.mem_cons.mp hb' with rfl | hb'
    · rfl
    · exact absurd heq.symm (hsid b' hb')
    · exact absurd heq (hsid b hb)
    · exact hr.distinct b hb b' hb' heq
  lasts := by
    intro b hb
    rcases List.mem_cons.mp hb with rfl | hb
    · rfl
    · exact hr.lasts b hb
  held := by
    intro s hs
    rcases List.mem_cons.mp hs with rfl | hs
    · exact ⟨UInt64.le_refl _, _, List.mem_cons_self, rfl⟩
    · obtain ⟨hseen, b, hb, hcont⟩ := hr.held s hs
      exact ⟨UInt64.le_trans hseen hnow, b, List.mem_cons_of_mem _ hb, hcont⟩
  sealed := fun e he hcookie =>
    let ⟨s, hs, htext⟩ := hr.sealed e he hcookie
    ⟨s, List.mem_cons_of_mem _ hs, htext⟩
  known := fun sid' h =>
    let ⟨b, hb, heq⟩ := hr.known sid' h
    ⟨b, List.mem_cons_of_mem _ hb, heq⟩
  ended := by
    intro b hb hmem
    rcases List.mem_cons.mp hb with rfl | hb
    · obtain ⟨b, hb, heq⟩ := hr.known _ hmem
      exact absurd heq (hsid b hb)
    · exact (hr.ended b hb hmem).imp_left fun h => UInt64.le_trans h hnow

/-- What a filter keeps of a name's first entry, it still is. -/
private theorem lookup_filter_of_lookup {β : Type} {p : String × β → Bool} {key : String} {v : β}
    {ms : List (String × β)} (h : ms.lookup key = some v) (hp : p (key, v) = true) :
    (ms.filter p).lookup key = some v := by
  induction ms with
  | nil => cases h
  | cons m ms ih =>
    by_cases hk : key = m.1
    · have hm : m = (key, v) := by
        obtain ⟨k, w⟩ := m
        subst hk
        rw [NameMap.lookup_cons_self] at h
        rw [Option.some.inj h]
      rw [hm, List.filter_cons_of_pos hp, NameMap.lookup_cons_self]
    · rw [NameMap.lookup_cons_of_ne hk] at h
      by_cases hm : p m = true
      · rw [List.filter_cons_of_pos hm, NameMap.lookup_cons_of_ne hk]
        exact ih h
      · rw [List.filter_cons_of_neg hm]
        exact ih h

theorem Kept.signsOut (hr : Kept codec r) (hnow : r.clock ≤ now) (hs : session ∈ r.held) :
    Kept codec { r with sessions := r.sessions.signOut session now, clock := now, ended := session.sid :: r.ended,
                        endedHere := session.sid :: r.endedHere } := by
  obtain ⟨-, b₀, hb₀, hcont⟩ := hr.held session hs
  have hsid : session.sid = b₀.sid := by rw [hcont]
  have hexp : session.exp = b₀.exp := by rw [hcont]
  refine ⟨hr.distinct, hr.lasts, (hr.passes hnow).held, hr.sealed, ?_, ?_⟩
  · intro sid h
    rcases List.mem_cons.mp h with rfl | h
    · exact ⟨b₀, hb₀, hsid.symm⟩
    · exact hr.known sid h
  · intro b hb h
    simp only [Sessions.signOut]
    by_cases heq : b.sid = session.sid
    · have hbb : b = b₀ := hr.distinct b hb b₀ hb₀ (heq.trans hsid)
      right
      rw [heq, NameMap.lookup_set_self, hbb, hexp]
    · have h : b.sid ∈ r.endedHere := (List.mem_cons.mp h).resolve_left heq
      rw [NameMap.lookup_set_of_ne heq]
      by_cases hlate : b.exp ≤ now
      · exact .inl hlate
      · right
        rcases hr.ended b hb h with hpast | hlook
        · exact absurd (UInt64.le_trans hpast hnow) hlate
        · exact lookup_filter_of_lookup hlook (by simpa using UInt64.not_le.mp hlate)

theorem Kept.restarts (hr : Kept codec r) (hnow : r.clock ≤ now) (key : κ) (previous : Option κ) :
    Kept codec { r with sessions := .new key previous, clock := now, endedHere := [] } :=
  ⟨hr.distinct, hr.lasts, (hr.passes hnow).held, hr.sealed, by simp, by simp⟩

theorem Session.renewed_eq_some {s fresh : Session} (h : s.renewed now = some fresh) : fresh = { s with seen := now } := by
  unfold Session.renewed at h
  split_ifs at h
  exact (Option.some.inj h).symm

theorem kept_step {a : Action κ} (hr : Kept codec r) (h : step c codec r a = some r') (hok : Sound c r a r') :
    Kept codec r' := by
  cases a with
  | begins sid iss sub name roles now =>
    simp only [step] at h
    split_ifs at h with hnow
    cases h
    exact hr.begins hnow hok
  | seals nonce session =>
    simp only [step] at h
    split_ifs at h with hs
    cases h
    exact hr.sealing fun _ => ⟨session, hs, rfl⟩
  | sealsFor nonce cookie plain =>
    simp only [step] at h
    split_ifs at h with hne
    cases h
    exact hr.sealing fun heq => absurd heq hne
  | renews nonce session now =>
    simp only [step] at h
    split_ifs at h with hs
    split at h
    · next fresh hfresh =>
      cases h
      obtain ⟨-, b, hb, hcont⟩ := hr.held session hs.1
      have hf := Session.renewed_eq_some hfresh
      have hheld : Kept codec (r.hold fresh now) := by
        refine hr.hold hs.2 (by rw [hf]; exact UInt64.le_refl _) ⟨b, hb, ?_⟩
        rw [Session.Continues, hf, hcont]
      exact hheld.sealing fun _ => ⟨fresh, List.mem_cons_self, rfl⟩
    · cases h
      exact hr.passes hs.2
  | opens text now =>
    simp only [step] at h
    split_ifs at h with hnow
    split at h
    · next session hopen =>
      cases h
      obtain ⟨hs, -⟩ := hr.mem_held hok (Sessions.openSession_eq_ok hopen).1
      obtain ⟨hseen, hb⟩ := hr.held session hs
      exact hr.hold hnow (UInt64.le_trans hseen hnow) hb
    · cases h
      exact hr.passes hnow
  | signsOut session now =>
    simp only [step] at h
    split_ifs at h with hs
    cases h
    exact hr.signsOut hs.2 hs.1
  | restarts key previous now =>
    simp only [step] at h
    split_ifs at h with hnow
    cases h
    exact hr.restarts hnow key previous

/-- What is promised of a session that opens: one that was begun, within its bounds, opened as it was sealed, and not
among those that were signed out of. -/
structure Lawful (c : Cipher κ) (codec : FloatCodec φ) (r : Running κ) (ended : List String) (text : List Char)
    (now : UInt64) (session : Session) : Prop where
  begun : ∃ b ∈ r.begun, session.Continues b ∧ now.toNat < b.iat.toNat + 8 * 60 * 60
  used : session.seen ≤ now ∧ now.toNat < session.seen.toNat + 30 * 60
  sealed : ∃ e ∈ r.log, unboxed c text = some (e.nonce, e.box) ∧ e.cookie = cookieName ∧ e.plain = session.text codec
  noOther : ∀ e ∈ r.log, unboxed c text = some (e.nonce, e.box) → e.cookie = cookieName
  signedIn : session.sid ∉ ended

/-- Sessions open lawfully, whatever is done with them and their key, as far as the gateway remembers who signed out:
back to its last start. -/
theorem open_lawful {key : κ} {previous : Option κ} {began : UInt64}
    (hrun : Run (step c codec) (Sound c) (start key previous began) r) (hnow : r.clock ≤ now)
    (hg : Genuine c r.log text) (hopen : r.sessions.openSession c codec text now = .ok session) :
    Lawful c codec r r.endedHere text now session := by
  have hr : Kept codec r := hrun.invariant (fun _ _ _ => kept_step) (kept_start key previous began)
  obtain ⟨hopened, hexp, hidle, hout⟩ := Sessions.openSession_eq_ok hopen
  obtain ⟨hheld, hsealed⟩ := hr.mem_held hg hopened
  obtain ⟨hseen, b, hb, hcont⟩ := hr.held session hheld
  have hbexp : session.exp = b.exp := by rw [hcont]
  refine ⟨⟨b, hb, hcont, ?_⟩, ⟨UInt64.le_trans hseen hnow, ?_⟩, hsealed, ?_, ?_⟩
  · rw [hbexp, hr.lasts b hb, UInt64.lt_iff_toNat_lt, UInt64.toNat_add] at hexp
    exact lt_of_lt_of_le hexp (Nat.mod_le _ _)
  · rw [UInt64.lt_iff_toNat_lt, UInt64.toNat_add] at hidle
    exact lt_of_lt_of_le hidle (Nat.mod_le _ _)
  · intro e he hbox
    obtain ⟨nonce, box, key, plain, hbox', hplain, -⟩ := Sessions.openAs_eq_some hopened
    obtain ⟨rfl, rfl⟩ := Prod.mk.inj (Option.some.inj (hbox'.symm.trans hbox))
    exact ((hg _ _ hbox _ _ _ hplain).2 e he rfl rfl).2.1
  · intro hmem
    have hsid : session.sid = b.sid := by rw [hcont]
    rw [hsid] at hmem
    rcases hr.ended b hb hmem with hpast | hlook
    · exact absurd (UInt64.lt_of_lt_of_le (hbexp ▸ hexp) (UInt64.le_trans hpast hnow)) (UInt64.lt_irrefl _)
    · rw [Sessions.isSignedOut, hsid, hlook] at hout
      cases hout

/-- A cipher of no secrecy, which still tells the keys apart, and the cookies. -/
def plainCipher : Cipher UInt8 where
  seals key _ cookie plain := key :: (if cookie = cookieName then 1 else 0) :: plain.map fun ch => UInt8.ofNat ch.toNat
  opens key _ cookie box :=
    match box with
    | k :: tag :: plain =>
      if k = key ∧ tag = 1 ∧ cookie = cookieName then some (plain.map fun b => Char.ofNat b.toNat) else none
    | _ => none
  encode bytes := bytes.map fun b => Char.ofNat b.toNat
  decode text := some (text.map fun ch => UInt8.ofNat ch.toNat)

/-- A session begun at the start of time. -/
def firstSession : Session := .begin "s" "i" "u" none [] 0

def firstNonce : List UInt8 := List.replicate nonceLen 65

/-- The first session's sealing. -/
def firstSealing : Sealing UInt8 :=
  ⟨1, firstNonce, cookieName, firstSession.text noFloats,
    plainCipher.seals 1 firstNonce cookieName (firstSession.text noFloats)⟩

def firstCookie : List Char := plainCipher.encode (firstNonce ++ firstSealing.box)

/-- The first session was sealed and signed out of, and the key was changed, the old one kept as the previous. -/
def rotated : Running UInt8 :=
  ⟨.new 2 (some 1), 2, [firstSession], [firstSession], [firstSealing], ["s"], []⟩

theorem run_rotated : Run (step plainCipher noFloats) (Sound plainCipher) (start 1 none 0) rotated :=
  .tail (.tail (.tail (.tail (.refl _) (a := .begins "s" "i" "u" none [] 0) rfl (by simp [Sound, start]))
    (a := .seals firstNonce firstSession) rfl trivial) (a := .signsOut firstSession 1) rfl trivial)
    (a := .restarts 2 (some 1) 2) rfl trivial

set_option maxRecDepth 20000 in
theorem unboxed_firstCookie : unboxed plainCipher firstCookie = some (firstNonce, firstSealing.box) := by
  decide +kernel

set_option maxRecDepth 20000 in
theorem genuine_firstCookie : Genuine plainCipher rotated.log firstCookie := by
  intro nonce box hbox key cookie plain hplain
  rw [unboxed_firstCookie] at hbox
  cases hbox
  have hbox : firstSealing.box = 1 :: 1 :: (firstSession.text noFloats).map fun ch => UInt8.ofNat ch.toNat := rfl
  have hback : ((firstSession.text noFloats).map fun ch => UInt8.ofNat ch.toNat).map (fun b => Char.ofNat b.toNat) =
      firstSession.text noFloats := by decide +kernel
  simp only [hbox, plainCipher, hback] at hplain
  split_ifs at hplain with h
  cases hplain
  refine ⟨⟨firstSealing, List.mem_cons_self, rfl, rfl⟩, fun e he _ _ => ?_⟩
  rw [List.mem_singleton.mp he]
  exact ⟨h.1, h.2.2.symm, rfl⟩

set_option maxRecDepth 20000 in
theorem openSession_firstCookie :
    rotated.sessions.openSession plainCipher noFloats firstCookie 3 = .ok firstSession := by
  decide +kernel

theorem open_lawful_rotated : Lawful plainCipher noFloats rotated [] firstCookie 3 firstSession :=
  open_lawful run_rotated (by decide) genuine_firstCookie openSession_firstCookie

/-- What was signed out of before the key changed opens again. -/
theorem not_lawful_rotated :
    ¬ ∀ (r : Running UInt8) (text : List Char) (now : UInt64) (session : Session),
      Run (step plainCipher noFloats) (Sound plainCipher) (start 1 none 0) r → r.clock ≤ now →
      Genuine plainCipher r.log text → r.sessions.openSession plainCipher noFloats text now = .ok session →
      Lawful plainCipher noFloats r r.ended text now session := by
  intro h
  have hl := h rotated firstCookie 3 firstSession run_rotated (by decide) genuine_firstCookie openSession_firstCookie
  exact hl.signedIn List.mem_cons_self

end Mcpdef.Admin
