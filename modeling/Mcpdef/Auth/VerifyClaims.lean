import Mcpdef.Auth.Verify

/-!
# Whom a verified token names

Both listeners read a token's caller by one model, but for one case: with the default subject claim, the bearer listener
takes the subject from the typed claims, an empty one too (`one_identity_iff`).
-/

namespace Mcpdef.Auth

open JsonText Audit Admin Listener

variable {φ κ δ : Type} {lib : JwtLibrary κ δ} {codec : FloatCodec φ} {exact : φ → ℚ} {v : Verifier κ}
  {token : List Char} {now : ℚ} {c : Claims φ} {claims : Members φ} {ms : Members φ} {name : String}

/-! ### One payload, read twice -/

theorem mem_membersAsMaps {value : Value φ} :
    (name, value) ∈ membersAsMaps ms ↔ ∃ found, (name, found) ∈ ms ∧ value = found.asMaps := by
  induction ms with
  | nil => simp [membersAsMaps]
  | cons m ms ih =>
    obtain ⟨k, w⟩ := m
    rw [membersAsMaps, List.mem_cons, ih]
    constructor
    · rintro (h | ⟨found, hmem, hvalue⟩)
      · cases h
        exact ⟨w, List.mem_cons_self, rfl⟩
      · exact ⟨found, List.mem_cons_of_mem _ hmem, hvalue⟩
    · rintro ⟨found, hmem, rfl⟩
      rcases List.mem_cons.mp hmem with h | h
      · cases h
        exact .inl rfl
      · exact .inr ⟨found, h, rfl⟩

theorem exists_mem_keepLast {β : Type} {ms : List (String × β)} (h : name ∈ ms.map Prod.fst) :
    ∃ value, (name, value) ∈ keepLast ms := by
  induction ms with
  | nil => cases h
  | cons m ms ih =>
    rw [keepLast]
    split_ifs with hlater
    · rcases List.mem_cons.mp h with rfl | h
      · exact ih hlater
      · exact ih h
    · rcases List.mem_cons.mp h with rfl | h
      · exact ⟨m.2, List.mem_cons_self⟩
      · obtain ⟨value, hvalue⟩ := ih h
        exact ⟨value, List.mem_cons_of_mem _ hvalue⟩

/-- Where an object does not name a member twice, the map that it is has the member's value. -/
theorem lookup_asMaps_of_member {found : Option (Value φ)} (h : member ms name = some found) :
    ((keepLast (membersAsMaps ms)).insertionSort fun a b => a.1 ≤ b.1).lookup name = found.map Value.asMaps := by
  have hperm := List.perm_insertionSort (fun a b : String × Value φ => a.1 ≤ b.1) (keepLast (membersAsMaps ms))
  have hnodup := (hperm.map Prod.fst).nodup_iff.mpr (nodup_keepLast (membersAsMaps ms))
  have hfrom : ∀ {value}, (name, value) ∈ keepLast (membersAsMaps ms) → ∃ w, (name, w) ∈ ms ∧ value = w.asMaps :=
    fun hmem => mem_membersAsMaps.mp ((keepLast_sublist _).subset hmem)
  rw [member] at h
  split at h
  · next hnone =>
    cases h
    rw [Option.map_none, ← Option.not_isSome_iff_eq_none, Option.isSome_iff_exists]
    rintro ⟨value, hvalue⟩
    obtain ⟨w, hw, -⟩ := hfrom (hperm.mem_iff.mp ((mem_iff_lookup hnodup).mpr hvalue))
    have hmem : (name, w) ∈ ms.filter fun m => m.1 = name := List.mem_filter.mpr ⟨hw, decide_eq_true rfl⟩
    rw [hnone] at hmem
    cases hmem
  · next m hone =>
    cases h
    have honly : ∀ w, (name, w) ∈ ms → w = m.2 := by
      intro w hw
      have hmem : (name, w) ∈ ms.filter fun m => m.1 = name := List.mem_filter.mpr ⟨hw, decide_eq_true rfl⟩
      rw [hone, List.mem_singleton] at hmem
      rw [← hmem]
    have hthere : (name, m.2) ∈ ms := by
      have hmem : m ∈ ms.filter fun m => m.1 = name := by
        rw [hone]
        exact List.mem_singleton_self m
      obtain ⟨hm, hname⟩ := List.mem_filter.mp hmem
      exact of_decide_eq_true hname ▸ hm
    obtain ⟨value, hvalue⟩ := exists_mem_keepLast (List.mem_map_of_mem (mem_membersAsMaps.mpr ⟨m.2, hthere, rfl⟩))
    obtain ⟨w, hw, rfl⟩ := hfrom hvalue
    rw [honly w hw] at hvalue
    exact (mem_iff_lookup hnodup).mp (hperm.mem_iff.mpr hvalue)
  · cases h

/-- The members that typed claims were read from. -/
structure ReadFrom (exact : φ → ℚ) (ms : Members φ) (c : Claims φ) : Prop where
  sub : member ms "sub" = some (some (.string c.sub))
  iss : member ms "iss" = some (some (.string c.iss))
  exp : ∃ n, member ms "exp" = some (some (.number n)) ∧ exactly exact n = c.exp
  nbf : ∃ found, member ms "nbf" = some found ∧ optionalTime exact found = some c.nbf

theorem asString_eq_some {value : Value φ} {text : String} (h : asString value = some text) : value = .string text := by
  cases value with
  | string s =>
    cases h
    rfl
  | _ => cases h

theorem asTime_eq_some {value : Value φ} {time : ℚ} (h : asTime exact value = some time) :
    ∃ n, value = .number n ∧ exactly exact n = time := by
  cases value with
  | number n =>
    cases h
    exact ⟨n, rfl, rfl⟩
  | _ => cases h

theorem readFrom_of_ofFields {sub iss exp nbf scope scp clientId azp : Option (Value φ)} (hsub : member ms "sub" = some sub)
    (hiss : member ms "iss" = some iss) (hexp : member ms "exp" = some exp) (hnbf : member ms "nbf" = some nbf)
    (h : Claims.ofFields exact sub iss exp nbf scope scp clientId azp = some c) : ReadFrom exact ms c := by
  obtain ⟨subject, hsubject, h⟩ := Option.bind_eq_some_iff.mp h
  obtain ⟨issuer, hissuer, h⟩ := Option.bind_eq_some_iff.mp h
  obtain ⟨expires, hexpires, h⟩ := Option.bind_eq_some_iff.mp h
  obtain ⟨notBefore, hnotBefore, h⟩ := Option.bind_eq_some_iff.mp h
  obtain ⟨_, _, h⟩ := Option.bind_eq_some_iff.mp h
  obtain ⟨_, _, h⟩ := Option.bind_eq_some_iff.mp h
  obtain ⟨_, _, h⟩ := Option.bind_eq_some_iff.mp h
  obtain ⟨_, _, h⟩ := Option.bind_eq_some_iff.mp h
  cases h
  obtain ⟨w, rfl, hw⟩ := Option.bind_eq_some_iff.mp hsubject
  obtain ⟨w', rfl, hw'⟩ := Option.bind_eq_some_iff.mp hissuer
  obtain ⟨w'', rfl, hw''⟩ := Option.bind_eq_some_iff.mp hexpires
  obtain ⟨n, rfl, hn⟩ := asTime_eq_some hw''
  exact ⟨asString_eq_some hw ▸ hsub, asString_eq_some hw' ▸ hiss, ⟨n, hexp, hn⟩, nbf, hnbf, hnotBefore⟩

theorem readFrom_of_ofJson (h : Claims.ofJson exact (.object ms) = some c) : ReadFrom exact ms c := by
  obtain ⟨sub, hsub, h⟩ := Option.bind_eq_some_iff.mp h
  obtain ⟨iss, hiss, h⟩ := Option.bind_eq_some_iff.mp h
  obtain ⟨exp, hexp, h⟩ := Option.bind_eq_some_iff.mp h
  obtain ⟨nbf, hnbf, h⟩ := Option.bind_eq_some_iff.mp h
  obtain ⟨scope, -, h⟩ := Option.bind_eq_some_iff.mp h
  obtain ⟨scp, -, h⟩ := Option.bind_eq_some_iff.mp h
  obtain ⟨clientId, -, h⟩ := Option.bind_eq_some_iff.mp h
  obtain ⟨azp, -, h⟩ := Option.bind_eq_some_iff.mp h
  exact readFrom_of_ofFields hsub hiss hexp hnbf h

/-! ### What a token passes -/

theorem mapError_eq_ok {ε ε' α : Type} {f : ε → ε'} {x : Except ε α} {a : α} : x.mapError f = .ok a ↔ x = .ok a := by
  cases x <;> simp [Except.mapError]

theorem orRefused_eq_ok {α : Type} {why : Refused} {x : Option α} {a : α} : orRefused why x = .ok a ↔ x = some a := by
  cases x <;> simp [orRefused]

/-- That a token passes every check but the one of its subject, with its claims as they are read, and all of them. -/
structure Passes (lib : JwtLibrary κ δ) (codec : FloatCodec φ) (exact : φ → ℚ) (v : Verifier κ) (token : List Char) (now : ℚ)
    (c : Claims φ) (claims : Members φ) : Prop where
  some_token : trimMatches isWhitespace token ≠ []
  signed : ∃ header kid jwk key bytes, lib.decodeHeader (trimMatches isWhitespace token) = .ok header ∧
    header.alg ∈ allowedAlgs ∧ header.kid = some kid ∧ find v.jwks kid = some jwk ∧
    algFitsKey header.alg jwk.type = true ∧ lib.fromJwk jwk = .ok key ∧
    lib.decode (trimMatches isWhitespace token) key (v.validation lib header.alg) = .ok bytes ∧
    (readBytes codec bytes).bind (Claims.ofJson exact) = some c
  payload : payload codec (trimMatches isWhitespace token) = some claims
  times : checkTimes c.exp c.nbf now lib.leeway = .ok ()

/-- When a token is taken, and for whom. -/
theorem verifyClaims_eq_ok {principal : Principal} :
    v.verifyClaims lib codec exact token now = .ok (principal, claims) ↔
      ∃ c subject, Passes lib codec exact v token now c claims ∧ v.subjectOf c claims = .ok subject ∧
        principal = ⟨subject, c.scopes, v.identity.roles claims, c.clientId.or c.azp, c.iss⟩ := by
  rw [Verifier.verifyClaims]
  constructor
  · intro h
    by_cases htoken : trimMatches isWhitespace token = []
    · rw [if_pos htoken] at h
      cases h
    rw [if_neg htoken] at h
    obtain ⟨header, hheader, h⟩ := Fallible.bind_eq_ok.mp h
    by_cases halg : header.alg ∉ allowedAlgs
    · rw [if_pos halg] at h
      cases h
    rw [if_neg halg] at h
    obtain ⟨kid, hkid, h⟩ := Fallible.bind_eq_ok.mp h
    obtain ⟨jwk, hjwk, h⟩ := Fallible.bind_eq_ok.mp h
    by_cases hfits : algFitsKey header.alg jwk.type = false
    · rw [if_pos hfits] at h
      cases h
    rw [if_neg hfits] at h
    obtain ⟨key, hkey, h⟩ := Fallible.bind_eq_ok.mp h
    obtain ⟨bytes, hbytes, h⟩ := Fallible.bind_eq_ok.mp h
    obtain ⟨c, hc, h⟩ := Fallible.bind_eq_ok.mp h
    obtain ⟨claims', hclaims, h⟩ := Fallible.bind_eq_ok.mp h
    obtain ⟨⟨⟩, htimes, h⟩ := Fallible.bind_eq_ok.mp h
    obtain ⟨subject, hsubject, h⟩ := Fallible.bind_eq_ok.mp h
    cases h
    rw [orRefused_eq_ok] at hkid hjwk hc hclaims
    rw [mapError_eq_ok] at hheader hkey hbytes
    exact ⟨c, subject, ⟨htoken, ⟨header, kid, jwk, key, bytes, hheader, not_not.mp halg, hkid, hjwk,
      by simpa using hfits, hkey, hbytes, hc⟩, hclaims, htimes⟩, hsubject, rfl⟩
  · rintro ⟨c, subject, ⟨htoken, hsigned, hclaims, htimes⟩, hsubject, rfl⟩
    obtain ⟨header, kid, jwk, key, bytes, hheader, halg, hkid, hjwk, hfits, hkey, hbytes, hc⟩ := hsigned
    simp only [if_neg htoken]
    refine Fallible.bind_eq_ok.mpr ⟨header, mapError_eq_ok.mpr hheader, ?_⟩
    rw [if_neg (not_not.mpr halg)]
    refine Fallible.bind_eq_ok.mpr ⟨kid, orRefused_eq_ok.mpr hkid, Fallible.bind_eq_ok.mpr ⟨jwk, orRefused_eq_ok.mpr hjwk, ?_⟩⟩
    rw [if_neg (by simp [hfits])]
    exact Fallible.bind_eq_ok.mpr ⟨key, mapError_eq_ok.mpr hkey, Fallible.bind_eq_ok.mpr ⟨bytes, mapError_eq_ok.mpr hbytes,
      Fallible.bind_eq_ok.mpr ⟨c, orRefused_eq_ok.mpr hc, Fallible.bind_eq_ok.mpr ⟨claims, orRefused_eq_ok.mpr hclaims,
        Fallible.bind_eq_ok.mpr ⟨(), htimes, Fallible.bind_eq_ok.mpr ⟨subject, hsubject, rfl⟩⟩⟩⟩⟩⟩

/-! ### What the library is documented to do -/

/-- What it decodes is the token's own payload, of an issuer and for an audience that it was told to check for. -/
structure JwtLibrary.Documented (lib : JwtLibrary κ δ) (codec : FloatCodec φ) : Prop where
  payload : ∀ {token key val bytes}, lib.decode token key val = .ok bytes → payloadBytes token = some bytes
  issuer : ∀ {token key val bytes ms iss}, lib.decode token key val = .ok bytes →
    readBytes codec bytes = some (.object ms) → member ms "iss" = some (some (.string iss)) → iss ∈ val.issuers
  audience : ∀ {token key val bytes ms}, lib.decode token key val = .ok bytes → "aud" ∈ val.required →
    readBytes codec bytes = some (.object ms) →
      ∃ aud, member ms "aud" = some (some aud) ∧ ∃ audience ∈ val.audiences, audience ∈ strings (some aud)

/-- What was checked of a token's algorithm, and of its claims. -/
structure Checked (lib : JwtLibrary κ δ) (exact : φ → ℚ) (v : Verifier κ) (token : List Char) (now : ℚ)
    (claims : Members φ) : Prop where
  algorithm : ∃ header kid jwk, lib.decodeHeader (trimMatches isWhitespace token) = .ok header ∧
    header.alg ∈ allowedAlgs ∧ header.kid = some kid ∧ find v.jwks kid = some jwk ∧ algFitsKey header.alg jwk.type = true
  issuer : claims.lookup "iss" = some (.string v.issuer)
  audience : ∃ audience ∈ v.resource :: v.audiences, audience ∈ strings (claims.lookup "aud")
  expires : ∃ n, claims.lookup "exp" = some (.number n) ∧ now - lib.leeway ≤ exactly exact n
  notBefore : ∀ found, claims.lookup "nbf" = some found → ∃ n, found = .number n ∧ exactly exact n ≤ now + lib.leeway

theorem strings_asMaps (value : Value φ) : strings (some value.asMaps) = strings (some value) := by
  cases value with
  | array vs =>
    rw [Value.asMaps, strings, strings]
    induction vs with
    | nil => rfl
    | cons w vs ih =>
      have hsame : asString w.asMaps = asString w := by cases w <;> rfl
      rw [itemsAsMaps, List.filterMap_cons, List.filterMap_cons, hsame, ih]
  | _ => rfl

theorem checkTimes_eq_ok {exp leeway : ℚ} {nbf : Option ℚ} (h : checkTimes exp nbf now leeway = .ok ()) :
    now - leeway ≤ exp ∧ ∀ time, nbf = some time → time ≤ now + leeway := by
  rw [checkTimes] at h
  split_ifs at h with hexpired hearly
  refine ⟨not_lt.mp hexpired, ?_⟩
  rintro time rfl
  simpa using hearly

/-- What a token passes says of its claims as a whole, its subject as it was read among them. -/
theorem checked_of_passes (hlib : lib.Documented codec) (h : Passes lib codec exact v token now c claims) :
    Checked lib exact v token now claims ∧ claims.lookup "sub" = some (.string c.sub) := by
  obtain ⟨header, kid, jwk, key, bytes, hheader, halg, hkid, hjwk, hfits, -, hdecode, hc⟩ := h.signed
  obtain ⟨value, hvalue, hc⟩ := Option.bind_eq_some_iff.mp hc
  obtain ⟨bytes', hbytes, hclaims⟩ := Option.bind_eq_some_iff.mp h.payload
  rw [hlib.payload hdecode, Option.some.injEq] at hbytes
  subst hbytes
  rw [hvalue, Option.bind_some] at hclaims
  cases value with
  | object ms =>
    cases hclaims
    have hread := readFrom_of_ofJson hc
    obtain ⟨hexp, hnbf⟩ := checkTimes_eq_ok h.times
    have hsub := lookup_asMaps_of_member hread.sub
    refine ⟨⟨⟨header, kid, jwk, hheader, halg, hkid, hjwk, hfits⟩, ?_, ?_, ?_, ?_⟩, hsub⟩
    · have hissuer : c.iss = v.issuer := List.mem_singleton.mp (hlib.issuer hdecode hvalue hread.iss)
      rw [lookup_asMaps_of_member hread.iss, hissuer]
      rfl
    · obtain ⟨aud, haud, audience, haudience, hmem⟩ := hlib.audience hdecode (by simp [Verifier.validation]) hvalue
      refine ⟨audience, haudience, ?_⟩
      rw [lookup_asMaps_of_member haud, Option.map_some, strings_asMaps]
      exact hmem
    · obtain ⟨n, hn, htime⟩ := hread.exp
      refine ⟨n, ?_, htime ▸ hexp⟩
      rw [lookup_asMaps_of_member hn]
      rfl
    · intro found hfound
      obtain ⟨nbf, hmember, htime⟩ := hread.nbf
      rw [lookup_asMaps_of_member hmember] at hfound
      cases nbf with
      | none => cases hfound
      | some w =>
        cases hfound
        obtain ⟨time, hw, hsome⟩ := Option.map_eq_some_iff.mp htime
        obtain ⟨n, rfl, hn⟩ := asTime_eq_some hw
        exact ⟨n, rfl, hn ▸ hnbf time hsome.symm⟩
  | _ => cases hclaims

/-! ### Both listeners -/

/-- That the console's sign-in takes whom the model names, with its console roles, and no one else. -/
def ConsoleNames (φ : Type) (m : IdentityModel) : Prop :=
  ∀ (client : Client φ) started q a finished, client.subject = m.subject → client.roles = m.roles →
    client.finish started q a = .ok finished →
    ∃ p tokens principal idClaims claims subject, a.provider = .ok p ∧
      p.idToken tokens.idToken started.nonce = .ok (principal, idClaims) ∧
      client.withUserinfo p a tokens idClaims = .ok claims ∧ m.subject claims = .ok subject ∧
      ((∃ session back, finished = .session session back ∧ session.sub = subject ∧
        session.roles = (m.roles claims).filter fun role => (ConsoleRole.parse role).isSome) ∨
          finished = .noRole subject claims ∧ ∀ role ∈ m.roles claims, ConsoleRole.parse role = none)

theorem consoleNames (m : IdentityModel) : ConsoleNames φ m := by
  intro client started q a finished hsubject hroles h
  unfold Client.finish at h
  split_ifs at h
  obtain ⟨p, hp, h⟩ := Fallible.bind_eq_ok.mp h
  by_cases hiss : q.iss.any (· ≠ p.issuer) = true ∨ (q.iss = none ∧ p.sendsIss = true)
  · rw [if_pos hiss] at h
    cases h
  rw [if_neg hiss] at h
  obtain ⟨code, -, h⟩ := Fallible.bind_eq_ok.mp h
  obtain ⟨secret, -, h⟩ := Fallible.bind_eq_ok.mp h
  obtain ⟨⟨⟩, -, h⟩ := Fallible.bind_eq_ok.mp h
  obtain ⟨⟨status, tokens⟩, -, h⟩ := Fallible.bind_eq_ok.mp h
  dsimp only at h
  by_cases hstatus : status ≠ 200
  · rw [if_pos hstatus] at h
    cases h
  rw [if_neg hstatus] at h
  obtain ⟨tokens, -, h⟩ := Fallible.bind_eq_ok.mp h
  obtain ⟨⟨principal, idClaims⟩, htoken, h⟩ := Fallible.bind_eq_ok.mp h
  obtain ⟨claims, hclaims, h⟩ := Fallible.bind_eq_ok.mp h
  obtain ⟨subject, hnamed, h⟩ := Fallible.bind_eq_ok.mp h
  rw [ofError_eq_ok] at hp htoken hnamed
  rw [hsubject] at hnamed
  rw [hroles] at h
  refine ⟨p, tokens, principal, idClaims, claims, subject, hp, htoken, hclaims, hnamed, ?_⟩
  split_ifs at h with hnone
  · cases h
    refine .inr ⟨rfl, fun role hrole => ?_⟩
    simpa using List.filter_eq_nil_iff.mp hnone role hrole
  · cases h
    exact .inl ⟨_, _, rfl, rfl, rfl⟩

/-- That a token is taken only with the checks it is to pass, for whom the model names by its claims. -/
def OneIdentity (lib : JwtLibrary κ δ) (codec : FloatCodec φ) (exact : φ → ℚ) (v : Verifier κ) (token : List Char)
    (now : ℚ) : Prop :=
  ∀ principal claims, v.verifyClaims lib codec exact token now = .ok (principal, claims) →
    Checked lib exact v token now claims ∧ v.identity.subject claims = .ok principal.subject ∧
      principal.roles = v.identity.roles claims

/-- That the subject claim is the default one, and that a token passes every other check with an empty one. -/
def EmptySubject (lib : JwtLibrary κ δ) (codec : FloatCodec φ) (exact : φ → ℚ) (v : Verifier κ) (token : List Char)
    (now : ℚ) : Prop :=
  v.identity.subjectClaim = "sub" ∧
    ∃ c claims, Passes lib codec exact v token now c claims ∧ claims.lookup "sub" = some (.string "")

theorem not_oneIdentity (hlib : lib.Documented codec) (h : EmptySubject lib codec exact v token now) :
    ¬ OneIdentity lib codec exact v token now := by
  obtain ⟨hdefault, c, claims, hpasses, hempty⟩ := h
  obtain ⟨-, hsub⟩ := checked_of_passes hlib hpasses
  intro hone
  have hsubject : v.subjectOf c claims = .ok c.sub := if_pos hdefault
  obtain ⟨-, hnamed, -⟩ := hone _ _ (verifyClaims_eq_ok.mpr ⟨c, c.sub, hpasses, hsubject, rfl⟩)
  obtain ⟨-, hsome⟩ := v.identity.subject_eq_ok.mp hnamed
  rw [hempty, Option.some.injEq, Value.string.injEq] at hsub
  exact hsome hsub.symm

theorem oneIdentity (hlib : lib.Documented codec) (h : ¬ EmptySubject lib codec exact v token now) :
    OneIdentity lib codec exact v token now := by
  intro principal claims hverified
  obtain ⟨c, subject, hpasses, hsubject, rfl⟩ := verifyClaims_eq_ok.mp hverified
  obtain ⟨hchecked, hsub⟩ := checked_of_passes hlib hpasses
  refine ⟨hchecked, ?_, rfl⟩
  rw [Verifier.subjectOf] at hsubject
  by_cases hdefault : v.identity.subjectClaim = "sub"
  · rw [if_pos hdefault] at hsubject
    cases hsubject
    have hsome : c.sub ≠ "" := fun hempty => h ⟨hdefault, c, claims, hpasses, by rw [hsub, hempty]⟩
    refine v.identity.subject_eq_ok.mpr ⟨?_, hsome⟩
    rw [hdefault]
    exact claim_of_lookup hsub
  · rw [if_neg hdefault] at hsubject
    exact mapError_eq_ok.mp hsubject

/-- Both listeners take whom the model names, and refuse where it names no one, but for a token whose empty `sub` the
default subject claim has the bearer listener take. -/
theorem one_identity_iff (hlib : lib.Documented codec) (exact : φ → ℚ) (v : Verifier κ) (token : List Char) (now : ℚ) :
    OneIdentity lib codec exact v token now ∧ ConsoleNames φ v.identity ↔ ¬ EmptySubject lib codec exact v token now :=
  ⟨fun h hempty => not_oneIdentity hlib hempty h.1, fun h => ⟨oneIdentity hlib h, consoleNames v.identity⟩⟩

/-! ### A token with an empty subject -/

/-- The claims of a token whose `sub` is empty. -/
def emptySub : Members Empty :=
  [("aud", .string "a"), ("exp", .number (.pos 9)), ("iss", .string "i"), ("sub", .string "")]

def emptySubToken : List Char := "h.eyJhdWQiOiJhIiwiZXhwIjo5LCJpc3MiOiJpIiwic3ViIjoiIn0.s".toList

/-- A library that finds this token valid, for its issuer and its audience. -/
def emptySubLibrary : JwtLibrary Unit Unit where
  decodeHeader token := if token = emptySubToken then .ok ⟨.rs256, some "k"⟩ else .error "InvalidToken"
  fromJwk _ := .ok ()
  decode token _ val :=
    if token = emptySubToken ∧ "i" ∈ val.issuers ∧ "a" ∈ val.audiences then
      .ok (ByteText.encode (print noFloats (.object emptySub)))
    else .error "InvalidToken"
  leeway := 60

def emptySubVerifier : Verifier Unit where
  jwks := [⟨some "k", .rsa, ()⟩]
  issuer := "i"
  resource := "a"

theorem payloadBytes_emptySubToken :
    payloadBytes emptySubToken = some (ByteText.encode (print noFloats (.object emptySub))) := by
  decide +kernel

theorem readBytes_emptySub :
    readBytes noFloats (ByteText.encode (print noFloats (.object emptySub))) = some (.object emptySub) := by
  have hfits : Fits 2 (.object emptySub : Value Empty) := by simp [emptySub, Fits]
  rw [readBytes, ByteText.decode_encode, Option.bind_some, read_print hfits (by decide)]

theorem decode_eq_ok {token : List Char} {val : Validation} {bytes : List UInt8}
    (h : emptySubLibrary.decode token () val = .ok bytes) :
    token = emptySubToken ∧ "i" ∈ val.issuers ∧ "a" ∈ val.audiences ∧
      bytes = ByteText.encode (print noFloats (.object emptySub)) := by
  simp only [emptySubLibrary] at h
  split_ifs at h with hvalid
  cases h
  exact ⟨hvalid.1, hvalid.2.1, hvalid.2.2, rfl⟩

theorem documented_emptySubLibrary : emptySubLibrary.Documented noFloats where
  payload h := by
    obtain ⟨rfl, -, -, rfl⟩ := decode_eq_ok h
    exact payloadBytes_emptySubToken
  issuer h hread hiss := by
    obtain ⟨-, hissuer, -, rfl⟩ := decode_eq_ok h
    cases readBytes_emptySub.symm.trans hread
    cases hiss
    exact hissuer
  audience h _ hread := by
    obtain ⟨-, -, haudience, rfl⟩ := decode_eq_ok h
    cases readBytes_emptySub.symm.trans hread
    exact ⟨.string "a", rfl, "a", haudience, List.mem_singleton_self _⟩

theorem emptySubject_emptySubToken :
    EmptySubject emptySubLibrary noFloats Empty.elim emptySubVerifier emptySubToken 0 := by
  have htrim : trimMatches isWhitespace emptySubToken = emptySubToken := by decide +kernel
  have hheader : emptySubLibrary.decodeHeader emptySubToken = .ok ⟨.rs256, some "k"⟩ := by
    simp only [emptySubLibrary, if_true]
  have hdecode : emptySubLibrary.decode emptySubToken () (emptySubVerifier.validation emptySubLibrary .rs256) =
      .ok (ByteText.encode (print noFloats (.object emptySub))) := by
    simp only [emptySubLibrary]
    exact if_pos ⟨trivial, List.mem_singleton_self _, List.mem_singleton_self _⟩
  have hmaps : (Value.object emptySub).asMaps = .object emptySub :=
    asMaps_of_isMaps _ ⟨by decide, trivial, trivial, trivial, trivial, trivial⟩
  have hpayload : payload noFloats emptySubToken = some emptySub := by
    rw [payload, payloadBytes_emptySubToken, Option.bind_some, readBytes_emptySub, Option.bind_some, hmaps]
    rfl
  refine ⟨rfl, ⟨"", "i", 9, none, none, none, none, none⟩, emptySub, ⟨?_, ?_, ?_, ?_⟩, rfl⟩
  · rw [htrim]
    exact List.cons_ne_nil _ _
  · rw [htrim]
    refine ⟨_, "k", _, (), _, hheader, by decide, rfl, rfl, rfl, rfl, hdecode, ?_⟩
    rw [readBytes_emptySub]
    rfl
  · rw [htrim, hpayload]
  · norm_num [checkTimes, emptySubLibrary]

theorem one_identity_iff_emptySub :
    OneIdentity emptySubLibrary noFloats Empty.elim emptySubVerifier emptySubToken 0 ∧
        ConsoleNames Empty emptySubVerifier.identity ↔
      ¬ EmptySubject emptySubLibrary noFloats Empty.elim emptySubVerifier emptySubToken 0 :=
  one_identity_iff documented_emptySubLibrary Empty.elim emptySubVerifier emptySubToken 0

theorem not_one_identity : ¬ OneIdentity emptySubLibrary noFloats Empty.elim emptySubVerifier emptySubToken 0 :=
  not_oneIdentity documented_emptySubLibrary emptySubject_emptySubToken

end Mcpdef.Auth
