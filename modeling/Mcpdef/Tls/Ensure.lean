import Mcpdef.Tls.LocalCa

/-!
# The listener certificate, ensured

What is there when the listener certificate is found or issued, and when it is not (`ensure_pair`).
-/

namespace Mcpdef.Tls

open Audit ByteText Listener

/-! ### What the libraries do -/

/-- The time of an element of a certificate's validity. -/
def instant (tag : UInt8) (time : Bytes) : Option Int :=
  (if tag = utcTimeTag then utcTime time else if tag = generalizedTimeTag then generalizedTime time
    else .ok none).toOption.join

/-- When a certificate starts to be valid and when it ends, in seconds since the Unix epoch. -/
def validity (der : Bytes) : Option (Int × Int) := do
  let (certificate, _) ← expect der sequenceTag
  let (fields, _) ← expect certificate sequenceTag
  let (_, fields) ← expect (pastVersion fields) integerTag
  let (_, fields) ← expect fields sequenceTag
  let (_, fields) ← expect fields sequenceTag
  let (validity, _) ← expect fields sequenceTag
  let (tag, time, times) ← element validity
  let (tag', time', _) ← element times
  let start ← instant tag time
  let stop ← instant tag' time'
  return (start, stop)

variable {κ : Type}

/-- The certificate libraries sign and check as X.509 says, and read the PEM that they write. -/
structure X509 (lib : Library κ) (issuedBy : Bytes → Bytes → Prop) : Prop where
  verify : ∀ {root leaf name at'}, lib.verify root leaf name at' = true →
    issuedBy root leaf ∧ ∃ w, validity leaf = some w ∧ w.1 ≤ at' ∧ at' ≤ w.2
  signedBy : ∀ {params key issuer der}, lib.signedBy params key issuer = some der →
    ∃ o : Outline, o.contents.length < 2 ^ 32 ∧ der = o.der ∧
      o.altNames = params.subjectAltNames.map SanType.generalName ∧
      o.notAfter.moment.epochSeconds = params.notAfter / second
  selfSigned : ∀ {params key der}, lib.selfSigned params key = some der →
    ∃ o : Outline, o.contents.length < 2 ^ 32 ∧ der = o.der ∧
      o.notAfter.moment.epochSeconds = params.notAfter / second
  fromDer : ∀ {params key issuer der}, lib.signedBy params key issuer = some der →
    lib.fromDer [der] (.pkcs8 (lib.keyDer key)) = true
  fromPem : ∀ {params key der}, lib.selfSigned params key = some der → lib.fromPem (encode (lib.pem der)) = some der

theorem readNotAfter_der {o : Outline} (h : o.contents.length < 2 ^ 32) :
    readNotAfter o.der = some o.notAfter.moment.epochSeconds := by
  rw [readNotAfter, notAfter_der (Outline.fitting h)]
  rfl

theorem readNotAfter_of_validity {der : Bytes} {w : Int × Int} (h : validity der = some w) :
    readNotAfter der = some w.2 := by
  rw [validity] at h
  simp only [Option.bind_eq_bind, Option.bind_eq_some_iff, Option.pure_def, Option.some.injEq, Prod.exists] at h
  obtain ⟨certificate, _, hcertificate, fields, _, hfields, _, serial, hserial, _, signature, hsignature, _, issuer, hissuer,
    validity, _, hvalidity, _, _, times, htimes, tag, time, _, htime, _, _, stop, hstop, rfl⟩ := h
  have hnotAfter : notAfterTime der = some (tag, time) := by
    rw [notAfterTime, hcertificate]
    simp only [Option.bind_eq_bind, Option.bind_some]
    rw [hfields]
    simp only [Option.bind_some]
    rw [hserial]
    simp only [Option.bind_some]
    rw [hsignature]
    simp only [Option.bind_some]
    rw [hissuer]
    simp only [Option.bind_some]
    rw [hvalidity]
    simp only [Option.bind_some]
    rw [htimes]
    simp only [Option.bind_some]
    rw [htime]
    rfl
  rw [readNotAfter, notAfter, hnotAfter]
  exact hstop

theorem instant_element (t : Time) : instant t.element.1 t.element.2 = some t.moment.epochSeconds := by
  cases t with
  | utc m hm =>
    rw [instant, Time.element, if_pos rfl, utcTime_utcText hm]
    rfl
  | generalized m =>
    have hne : generalizedTimeTag ≠ utcTimeTag := by decide
    rw [instant, Time.element, if_neg hne, if_pos rfl, generalizedTime_generalizedText m]
    rfl

theorem validity_der {o : Outline} (h : o.Fitting) :
    validity o.der = some (o.notBefore.moment.epochSeconds, o.notAfter.moment.epochSeconds) := by
  have hvalidity := h.validity
  rw [Time.der_eq, Time.der_eq] at hvalidity
  obtain ⟨hbefore, hafter⟩ := hvalidity.of_append
  have htime := element_tlv o.notAfter.element.1 hafter.of_tlv []
  rw [List.append_nil] at htime
  rw [validity, expect_der h]
  simp only [Option.bind_eq_bind, Option.bind_some]
  rw [expect_contents h]
  simp only [Option.bind_some]
  rw [pastVersion_fields h, Outline.fields, expect_tlv integerTag h.serial]
  simp only [Option.bind_some]
  rw [expect_tlv sequenceTag h.signature]
  simp only [Option.bind_some]
  rw [expect_tlv sequenceTag h.issuer]
  simp only [Option.bind_some]
  rw [expect_tlv sequenceTag h.validity]
  simp only [Option.bind_some]
  rw [Time.der_eq, Time.der_eq, element_tlv _ hbefore.of_tlv]
  simp only [Option.bind_some]
  rw [htime]
  simp only [Option.bind_some]
  rw [instant_element, instant_element]
  rfl

/-! ### Times -/

section Times

variable {now : Int}

theorem le_of_secs_le {s : Int} (h : s ≤ secs now) : s * second ≤ max now 0 := by
  rw [secs] at h
  rw [second] at *
  omega

theorem lt_of_secs_lt {s : Int} (h : secs now < s) : max now 0 < s * second := by
  rw [secs] at h
  rw [second] at *
  omega

theorem later_eq_ok {lifetime : Int} {t : Int} (h : later now lifetime = .ok t) :
    t = now + lifetime * second ∧ 0 ≤ t := by
  rw [later] at h
  split_ifs at h with hrange
  cases h
  exact ⟨rfl, hrange.1⟩

end Times

/-! ### Checking and signing -/

variable {lib : Library κ} {issuedBy : Bytes → Bytes → Prop} {ca : LocalCa κ} {names : Names} {now : Int}

theorem verify_of_check {leaf : Bytes} (h : ca.check lib leaf names now = .ok ()) :
    ∀ name ∈ names.list, lib.verify ca.cert leaf name (secs now) = true := by
  intro name hname
  rw [LocalCa.check] at h
  split_ifs at h
  have hask := Fallible.forM_eq_ok.mp h name hname
  rw [LocalCa.ask] at hask
  obtain ⟨-, -, hask⟩ := Fallible.bind_eq_ok.mp hask
  split_ifs at hask with hverify
  exact hverify

/-- What is checked was issued by the CA and is valid. -/
theorem valid_of_check (hlib : X509 lib issuedBy) {leaf : Bytes} (h : ca.check lib leaf names now = .ok ()) :
    issuedBy ca.cert leaf ∧ ∃ w, validity leaf = some w ∧ w.1 ≤ secs now ∧ secs now ≤ w.2 := by
  obtain ⟨name, hname⟩ := List.exists_mem_of_ne_nil _ names.ne_nil
  exact hlib.verify (verify_of_check h name hname)

theorem usable_eq_ok (h : ca.usable now = .ok ()) {notAfter : Int} (hca : ca.notAfter = some notAfter) :
    now < sinceEpoch notAfter := by
  rw [LocalCa.usable, hca] at h
  simp only at h
  split_ifs at h with hended
  exact not_le.mp hended

theorem shown_generalName {name : Name} {san : SanType} (h : name.san = .ok san) :
    san.generalName.shown = some name.altName := by
  cases name with
  | dns text =>
    rw [Name.san] at h
    split_ifs at h
    cases h
    rfl
  | ip address =>
    cases h
    rfl

theorem shown_generalNames {list : List Name} {sans : List SanType} (h : list.mapM Name.san = .ok sans) :
    (sans.map SanType.generalName).filterMap GeneralName.shown = list.map Name.altName := by
  induction list generalizing sans with
  | nil =>
    cases h
    rfl
  | cons name list ih =>
    obtain ⟨san, sans, hsan, hsans, rfl⟩ := Fallible.mapM_cons_eq_ok.mp h
    rw [List.map_cons, List.filterMap_cons_some (shown_generalName hsan), ih hsans, List.map_cons]

/-- What is signed: for the names, until its lifetime or the CA ends, and fit to be served. -/
structure Signed (lib : Library κ) (ca : LocalCa κ) (names : Names) now (leaf : Leaf κ) : Prop where
  usable : ca.usable now = .ok ()
  altNames : (CertificateNames.read leaf.cert).altNames = names.altNames
  notAfter : ∃ t, ca.endTime now leafLifetime = .ok t ∧ readNotAfter leaf.cert = some (t / second)
  served : lib.fromDer [leaf.cert] (.pkcs8 (lib.keyDer leaf.key)) = true

theorem signed_of_sign (hlib : X509 lib issuedBy) {draw : Draw} {leaf : Leaf κ} (h : ca.sign lib draw names now = .ok leaf) :
    Signed lib ca names now leaf := by
  rw [LocalCa.sign] at h
  obtain ⟨⟨⟩, husable, h⟩ := Fallible.bind_eq_ok.mp h
  obtain ⟨key, -, h⟩ := Fallible.bind_eq_ok.mp h
  obtain ⟨sans, hsans, h⟩ := Fallible.bind_eq_ok.mp h
  obtain ⟨t, ht, h⟩ := Fallible.bind_eq_ok.mp h
  obtain ⟨der, hder, h⟩ := Fallible.bind_eq_ok.mp h
  cases h
  have hsigned := orElse_eq_ok.mp hder
  obtain ⟨o, ho, rfl, haltNames, hnotAfter⟩ := hlib.signedBy hsigned
  refine ⟨husable, ?_, ⟨t, ht, ?_⟩, hlib.fromDer hsigned⟩
  · rw [names_der (Outline.fitting ho)]
    simp only
    rw [haltNames, shown_generalNames hsans]
    rfl
  · rw [readNotAfter_der ho, hnotAfter]

theorem issue_eq_ok {leaf : Leaf κ} (h : ca.issue lib names now = .ok leaf) :
    ca.sign lib .leaf names now = .ok leaf ∧ ca.check lib leaf.cert names now = .ok () := by
  rw [LocalCa.issue] at h
  obtain ⟨leaf', hsign, h⟩ := Fallible.bind_eq_ok.mp h
  cases hcheck : ca.check lib leaf'.cert names now with
  | ok _ =>
    simp only [hcheck] at h
    cases h
    exact ⟨hsign, hcheck⟩
  | error why =>
    simp only [hcheck] at h
    split_ifs at h

/-! ### The CA in the directory -/

/-- The CA is the one in the directory, and does not end before 1970. -/
structure CaInPlace (lib : Library κ) (ca : LocalCa κ) (d : FileDir) : Prop where
  cert : ∃ text, readCaCert lib d = .ok (text, ca.cert)
  notAfter : ∃ notAfter, ca.notAfter = some notAfter ∧ 0 ≤ notAfter

theorem inPlace_of_load {d : FileDir} (h : LocalCa.load lib d = .ok (some ca)) : CaInPlace lib ca d := by
  rw [LocalCa.load] at h
  split at h
  · cases h
  · cases h
  · cases h
  obtain ⟨⟨text, cert⟩, hcert, h⟩ := Fallible.bind_eq_ok.mp h
  obtain ⟨secret, -, h⟩ := Fallible.bind_eq_ok.mp h
  obtain ⟨key, -, h⟩ := Fallible.bind_eq_ok.mp h
  simp only at h
  split at h
  · next hconsistent =>
    cases h
    refine ⟨⟨text, hcert⟩, ?_⟩
    rw [LocalCa.consistent] at hconsistent
    obtain ⟨notAfter, hnotAfter, hconsistent⟩ := Fallible.bind_eq_ok.mp hconsistent
    obtain ⟨probe, hsign, -⟩ := Fallible.bind_eq_ok.mp hconsistent
    rw [LocalCa.sign] at hsign
    obtain ⟨⟨⟩, husable, -⟩ := Fallible.bind_eq_ok.mp hsign
    have hca := orElse_eq_ok.mp hnotAfter
    have hlt : (max (notAfter - 86400) 0 : Int) * 1000000000 < (max notAfter 0 : Int) * 1000000000 :=
      usable_eq_ok husable hca
    refine ⟨notAfter, hca, ?_⟩
    omega
  · cases h

theorem absent_of_load {d : FileDir} (h : LocalCa.load lib d = .ok none) : d caCrt = none ∧ d caKey = none := by
  rw [LocalCa.load] at h
  split at h
  · next hcrt hkey => exact ⟨by simpa using hcrt, by simpa using hkey⟩
  · cases h
  · cases h
  · obtain ⟨⟨text, cert⟩, -, h⟩ := Fallible.bind_eq_ok.mp h
    obtain ⟨secret, -, h⟩ := Fallible.bind_eq_ok.mp h
    obtain ⟨key, -, h⟩ := Fallible.bind_eq_ok.mp h
    simp only at h
    split at h <;> cases h

/-- A CA that is made ends when its certificate says. -/
theorem new_eq_ok (hlib : X509 lib issuedBy) (h : LocalCa.new lib names now = .ok ca) :
    lib.fromPem (encode ca.certPem) = some ca.cert ∧ ∃ notAfter, ca.notAfter = some notAfter ∧ 0 ≤ notAfter := by
  rw [LocalCa.new] at h
  obtain ⟨key, -, h⟩ := Fallible.bind_eq_ok.mp h
  obtain ⟨t, ht, h⟩ := Fallible.bind_eq_ok.mp h
  obtain ⟨der, hder, h⟩ := Fallible.bind_eq_ok.mp h
  cases h
  have hsigned := orElse_eq_ok.mp hder
  obtain ⟨o, ho, rfl, hnotAfter⟩ := hlib.selfSigned hsigned
  refine ⟨hlib.fromPem hsigned, _, readNotAfter_der ho, ?_⟩
  rw [hnotAfter]
  exact Int.ediv_nonneg (later_eq_ok ht).2 (by decide)

theorem apart_ca : NamesApart caCrt caKey := ⟨by simp [caCrt, caKey], by simp [caCrt, caKey]⟩

theorem apart_tls : NamesApart tlsCrt tlsKey := ⟨by simp [tlsCrt, tlsKey], by simp [tlsCrt, tlsKey]⟩

/-- A name of one pair is no name of the other, nor one beside it. -/
theorem ne_sibling_of_head {name other : Text} (h : name.head? ≠ other.head?) (hother : other ≠ []) (pid : Nat)
    (what : Text) : name ≠ sibling pid other what := by
  intro heq
  rw [heq, sibling, List.head?_append_of_ne_nil _ hother] at h
  exact h rfl

/-- The files of the listener's pair and those staged for it. -/
theorem not_mem_tls (pid : Nat) : ∀ name ∈ [caCrt, caKey],
    name ∉ [tlsCrt, tlsKey, staged pid tlsCrt, staged pid tlsKey, backup pid tlsCrt] := by
  intro name hname
  have hhead : name.head? ≠ tlsCrt.head? ∧ name.head? ≠ tlsKey.head? ∧ name ≠ tlsCrt ∧ name ≠ tlsKey := by
    revert name
    decide
  obtain ⟨hcrt, hkey, hne, hne'⟩ := hhead
  simp only [List.mem_cons, List.not_mem_nil, or_false, not_or]
  exact ⟨hne, hne', ne_sibling_of_head hcrt (by decide) _ _, ne_sibling_of_head hkey (by decide) _ _,
    ne_sibling_of_head hcrt (by decide) _ _⟩

theorem not_mem_ca (pid : Nat) : ∀ name ∈ [tlsCrt, tlsKey],
    name ∉ [caCrt, caKey, staged pid caCrt, staged pid caKey, backup pid caCrt] := by
  intro name hname
  have hhead : name.head? ≠ caCrt.head? ∧ name.head? ≠ caKey.head? ∧ name ≠ caCrt ∧ name ≠ caKey := by
    revert name
    decide
  obtain ⟨hcrt, hkey, hne, hne'⟩ := hhead
  simp only [List.mem_cons, List.not_mem_nil, or_false, not_or]
  exact ⟨hne, hne', ne_sibling_of_head hcrt (by decide) _ _, ne_sibling_of_head hkey (by decide) _ _,
    ne_sibling_of_head hcrt (by decide) _ _⟩

theorem readCaCert_congr {d d' : FileDir} (h : d' caCrt = d caCrt) : readCaCert lib d' = readCaCert lib d := by
  rw [readCaCert, readFile, h]
  rfl

theorem CaInPlace.congr {d d' : FileDir} (hca : CaInPlace lib ca d) (h : d' caCrt = d caCrt) : CaInPlace lib ca d' := by
  obtain ⟨⟨text, hcert⟩, hnotAfter⟩ := hca
  exact ⟨⟨text, (readCaCert_congr h).trans hcert⟩, hnotAfter⟩

theorem readCaCert_of_file {d : FileDir} {text : Text} {der : Bytes} {mode : Nat}
    (hfile : d caCrt = some (.file (encode text) mode)) (hpem : lib.fromPem (encode text) = some der) :
    readCaCert lib d = .ok (text, der) := by
  have hread : readFile d caCrt = some (encode text) := by rw [readFile, hfile]
  rw [readCaCert, hread]
  change (orElse _ (decode (encode text))).bind _ = _
  rw [decode_encode]
  change (orElse _ (lib.fromPem (encode text))).bind _ = _
  rw [hpem]
  rfl

/-- What is left of the listener's pair by what is done about the CA, and of the CA. -/
theorem ensureCa_spec (hlib : X509 lib issuedBy) {f : Faults} {pid : Nat} {d d' : FileDir} {makeCa : Bool}
    {outcome : Except CaError (LocalCa κ × List Note)} (h : ensureCa lib f pid d names now makeCa = (d', outcome)) :
    (∀ name ∈ [tlsCrt, tlsKey], d' name = d name) ∧ ((d caCrt).isSome ∨ (d caKey).isSome → d' = d) ∧
      ∀ ca notes, outcome = .ok (ca, notes) → CaInPlace lib ca d' := by
  rw [ensureCa] at h
  cases hload : LocalCa.load lib d with
  | error why =>
    rw [hload] at h
    cases h
    exact ⟨fun _ _ => rfl, fun _ => rfl, nofun⟩
  | ok found =>
    cases found with
    | some ca =>
      rw [hload] at h
      cases h
      refine ⟨fun _ _ => rfl, fun _ => rfl, fun _ _ h => ?_⟩
      cases h
      exact inPlace_of_load hload
    | none =>
      obtain ⟨hcrt, hkey⟩ := absent_of_load hload
      have habsent : ¬ ((d caCrt).isSome ∨ (d caKey).isSome) := by simp [hcrt, hkey]
      rw [hload] at h
      simp only at h
      by_cases hmake : makeCa
      · rw [if_pos hmake] at h
        cases hnew : LocalCa.new lib names now with
        | error why =>
          rw [hnew] at h
          cases h
          exact ⟨fun _ _ => rfl, fun _ => rfl, nofun⟩
        | ok ca =>
          rw [hnew] at h
          obtain ⟨hfromPem, hnotAfter⟩ := new_eq_ok hlib hnew
          have hspec := @writePair_spec pid (caCrt, encode ca.certPem) (caKey, encode (lib.keyPem ca.issuer.key))
            f apart_ca d
          simp only [LocalCa.write] at h
          cases hwrite : writePair f pid (caCrt, encode ca.certPem) (caKey, encode (lib.keyPem ca.issuer.key)) d with
          | mk e written =>
            rw [hwrite] at h hspec
            have hothers : ∀ name ∈ [tlsCrt, tlsKey], e name = d name :=
              fun name hname => hspec.others (not_mem_ca pid name hname)
            cases written with
            | error why =>
              cases h
              exact ⟨hothers, fun h => absurd h habsent, nofun⟩
            | ok _ =>
              cases h
              refine ⟨hothers, fun h => absurd h habsent, fun _ _ h => ?_⟩
              cases h
              exact ⟨⟨ca.certPem, readCaCert_of_file (Written.cert_eq hspec) hfromPem⟩, hnotAfter⟩
      · rw [if_neg hmake] at h
        cases h
        exact ⟨fun _ _ => rfl, fun _ => rfl, nofun⟩

/-- A certificate that is served: the CA's, for the names, valid, and with its time to be issued again still to come. -/
structure Served (issuedBy : Bytes → Bytes → Prop) (ca : LocalCa κ) (names : Names) now
    (certified : CertifiedKey) (notAfter : Int) (leaf : Bytes) : Prop where
  chain : certified.chain.head? = some leaf
  issued : issuedBy ca.cert leaf
  altNames : (CertificateNames.read leaf).altNames = names.altNames
  valid : ∃ w, validity leaf = some w ∧ w.1 * second ≤ max now 0 ∧ max now 0 ≤ w.2 * second
  ends : readNotAfter leaf = some notAfter
  left : now + renewBefore * second < notAfter * second ∨ ca.notAfter = some notAfter

theorem kept_eq_some {d : FileDir} {certified : CertifiedKey} {notAfter : Int}
    (h : kept lib d ca names now = some (certified, notAfter)) :
    ∃ leaf, certified.chain.head? = some leaf ∧ (CertificateNames.read leaf).altNames = names.altNames ∧
      ca.check lib leaf names now = .ok () ∧ readNotAfter leaf = some notAfter := by
  rw [kept] at h
  split_ifs at h
  simp only [Option.bind_eq_bind, Option.bind_eq_some_iff] at h
  obtain ⟨found, -, leaf, hleaf, h⟩ := h
  split_ifs at h with hnames
  simp only [Option.bind_eq_some_iff, Option.pure_def, Option.some.injEq, Prod.mk.injEq] at h
  obtain ⟨⟨⟩, hcheck, notAfter', hnotAfter, rfl, rfl⟩ := h
  refine ⟨leaf, hleaf, not_not.mp hnames, ?_, hnotAfter⟩
  cases hchecked : ca.check lib leaf names now with
  | ok _ => rfl
  | error why =>
    rw [hchecked] at hcheck
    cases hcheck

/-- A certificate there that has more than ten days left. -/
theorem served_of_kept (hlib : X509 lib issuedBy) {d : FileDir} {certified : CertifiedKey} {notAfter : Int}
    (h : kept lib d ca names now = some (certified, notAfter)) (hleft : secs now + renewBefore < notAfter) :
    ∃ leaf, Served issuedBy ca names now certified notAfter leaf := by
  obtain ⟨leaf, hleaf, hnames, hcheck, hends⟩ := kept_eq_some h
  obtain ⟨hissued, w, hw, hstart, hstop⟩ := valid_of_check hlib hcheck
  have hlong : max now 0 < (notAfter - renewBefore) * second := lt_of_secs_lt (by omega)
  have hend : w.2 = notAfter := Option.some.inj ((readNotAfter_of_validity hw).symm.trans hends)
  refine ⟨leaf, hleaf, hissued, hnames, ⟨w, hw, le_of_secs_le hstart, ?_⟩, hends, .inl ?_⟩
  · rw [hend]
    simp only [second, renewBefore] at *
    omega
  · simp only [second, renewBefore] at *
    omega

/-- A certificate issued now. -/
theorem served_of_issue (hlib : X509 lib issuedBy) {d : FileDir} (hca : CaInPlace lib ca d) {leaf : Leaf κ}
    (h : ca.issue lib names now = .ok leaf) {certified : CertifiedKey} (hcertified : leaf.certified lib = .ok certified) :
    Served issuedBy ca names now certified ((readNotAfter leaf.cert).getD 0) leaf.cert := by
  obtain ⟨hsign, hcheck⟩ := issue_eq_ok h
  have hsigned := signed_of_sign hlib hsign
  obtain ⟨hissued, w, hw, hstart, hstop⟩ := valid_of_check hlib hcheck
  obtain ⟨t, ht, hends⟩ := hsigned.notAfter
  obtain ⟨caEnd, hcaEnd, hcaPos⟩ := hca.notAfter
  have husable : now < max caEnd 0 * 1000000000 := usable_eq_ok hsigned.usable hcaEnd
  have hend : w.2 = t / second := Option.some.inj ((readNotAfter_of_validity hw).symm.trans hends)
  have hsecs : 0 ≤ secs now := Int.ediv_nonneg (le_max_right _ _) (by decide)
  obtain ⟨t', hlater, ht'⟩ := Fallible.map_eq_ok.mp ht
  obtain ⟨hlater, -⟩ := later_eq_ok hlater
  rw [hcaEnd] at ht'
  -- It ends after its lifetime, rounded down to seconds, or with the CA.
  have hcases : now + 10 * 86400 * 1000000000 < t / second * 1000000000 ∨ t / second = caEnd := by
    have hmin : t = min (now + 30 * 86400 * 1000000000) (max caEnd 0 * 1000000000) := by
      rw [← ht', hlater]
      rfl
    rw [second, hmin]
    omega
  rw [hends, Option.getD_some]
  refine ⟨?_, hissued, hsigned.altNames, ⟨w, hw, le_of_secs_le hstart, ?_⟩, hends, ?_⟩
  · rw [Leaf.certified, if_pos hsigned.served] at hcertified
    cases hcertified
    rfl
  · have hstop' : 0 ≤ w.2 := hsecs.trans hstop
    rw [hend] at hstop' ⊢
    show (max now 0 : Int) ≤ t / second * 1000000000
    omega
  · rcases hcases with hleft | hlast
    · exact .inl hleft
    · exact .inr (hlast ▸ hcaEnd)

theorem ensureLeaf_spec (hlib : X509 lib issuedBy) {f : Faults} {pid : Nat} {d d' : FileDir} (hca : CaInPlace lib ca d)
    {outcome : Except CaError (CertifiedKey × Int × List Note)}
    (h : ensureLeaf lib f pid d ca names now = (d', outcome)) :
    (∀ name ∈ [caCrt, caKey], d' name = d name) ∧
      (∀ why, outcome = .error why → ∀ name ∈ [tlsCrt, tlsKey], d' name = d name) ∧
      ∀ certified notAfter notes, outcome = .ok (certified, notAfter, notes) →
        ∃ leaf, Served issuedBy ca names now certified notAfter leaf := by
  rw [ensureLeaf] at h
  simp only at h
  split at h
  · next certified notAfter hkept =>
    cases h
    refine ⟨fun _ _ => rfl, nofun, fun _ _ _ h => ?_⟩
    cases h
    obtain ⟨hkept, hleft⟩ := Option.filter_eq_some_iff.mp hkept
    exact served_of_kept hlib hkept (by simpa using hleft)
  · cases hissue : ca.issue lib names now with
    | error why =>
      rw [hissue] at h
      cases h
      exact ⟨fun _ _ => rfl, fun _ _ _ _ => rfl, nofun⟩
    | ok leaf =>
      rw [hissue] at h
      simp only [Leaf.write] at h
      have hspec := @writePair_spec pid (tlsCrt, encode leaf.certPem) (tlsKey, encode (lib.keyPem leaf.key))
        f apart_tls d
      cases hwrite : writePair f pid (tlsCrt, encode leaf.certPem) (tlsKey, encode (lib.keyPem leaf.key)) d with
      | mk e written =>
        rw [hwrite] at h hspec
        have hothers : ∀ name ∈ [caCrt, caKey], e name = d name :=
          fun name hname => hspec.others (not_mem_tls pid name hname)
        cases written with
        | error why =>
          cases h
          refine ⟨hothers, fun _ _ => ?_, nofun⟩
          simp only [List.mem_cons, List.not_mem_nil, or_false, forall_eq_or_imp, forall_eq]
          exact ⟨Unwritten.cert_eq hspec, Unwritten.key_eq hspec⟩
        | ok _ =>
          have hserved := (signed_of_sign hlib (issue_eq_ok hissue).1).served
          have hcertified : leaf.certified lib = .ok ⟨[leaf.cert], .pkcs8 (lib.keyDer leaf.key)⟩ := by
            rw [Leaf.certified, if_pos hserved]
          rw [hcertified] at h
          cases h
          refine ⟨hothers, nofun, fun _ _ _ h => ?_⟩
          cases h
          exact ⟨leaf.cert, served_of_issue hlib hca hissue hcertified⟩

/-- The time to issue a certificate again is still to come. -/
theorem lt_renewAt {certified : CertifiedKey} {notAfter : Int} {leaf : Bytes}
    (h : Served issuedBy ca names now certified notAfter leaf) (hsoon : notAfter < ca.notAfter.getD (2 ^ 63 - 1)) :
    now < sinceEpoch notAfter - renewBefore * second := by
  rcases h.left with hleft | hlast
  · simp only [sinceEpoch, second] at *
    omega
  · rw [hlast, Option.getD_some] at hsoon
    exact absurd hsoon (lt_irrefl _)

/-- The files of a certificate and its key change together, whichever step of writing them fails, and no file stays
staged that was not.  So the listener certificate that is found or issued is of the CA in the directory, for exactly the
names, valid now, or at the epoch where that is later, and has more than ten days left or ends with the CA, and its time to
be issued again is still to come.  Where there is none, what was there is still there. -/
theorem ensure_pair {κ : Type} :
    (∀ (f : Faults) (pid : Nat) (cert key : Text × Bytes) (d : FileDir), NamesApart cert.1 key.1 →
      Settled pid cert key d (writePair f pid cert key d).1 (writePair f pid cert key d).2) ∧
    ∀ (lib : Library κ) (issuedBy : Bytes → Bytes → Prop), X509 lib issuedBy →
      ∀ (f : EnsureFaults) (pid : Nat) (d d' : FileDir) (names : Names) (now : Int) (makeCa : Bool)
        (outcome : Except CaError Ensured), ensure lib f pid d names now makeCa = (d', outcome) →
        (∀ e, outcome = .ok e → ∃ ca leaf, CaInPlace lib ca d' ∧
          Served issuedBy ca names now e.certified e.notAfter leaf ∧ ∀ t, e.renewAt = some t → now < t) ∧
        (∀ why, outcome = .error why → ∀ name ∈ [tlsCrt, tlsKey], d' name = d name) ∧
        ((d caCrt).isSome ∨ (d caKey).isSome → ∀ name ∈ [caCrt, caKey], d' name = d name) := by
  refine ⟨fun f pid cert key d hapart => writePair_spec f hapart d, ?_⟩
  intro lib issuedBy hlib f pid d d' names now makeCa outcome h
  rw [ensure] at h
  cases hensureCa : ensureCa lib f.ca pid d names now makeCa with
  | mk e foundCa =>
    obtain ⟨htls, hcaFiles, hca⟩ := ensureCa_spec hlib hensureCa
    rw [hensureCa] at h
    cases foundCa with
    | error why =>
      cases h
      exact ⟨nofun, fun _ _ => htls, fun hpresent name _ => by rw [hcaFiles hpresent]⟩
    | ok found =>
      obtain ⟨ca, made⟩ := found
      simp only at h
      cases hensureLeaf : ensureLeaf lib f.leaf pid e ca names now with
      | mk e' foundLeaf =>
        have hplace := hca ca made rfl
        obtain ⟨hcaKept, hunwritten, hserved⟩ := ensureLeaf_spec hlib hplace hensureLeaf
        rw [hensureLeaf] at h
        have hpair : (d caCrt).isSome ∨ (d caKey).isSome → ∀ name ∈ [caCrt, caKey], e' name = d name :=
          fun hpresent name hname => (hcaKept name hname).trans (by rw [hcaFiles hpresent])
        cases foundLeaf with
        | error why =>
          cases h
          exact ⟨nofun, fun _ _ name hname => (hunwritten why rfl name hname).trans (htls name hname), hpair⟩
        | ok found =>
          obtain ⟨certified, notAfter, issued⟩ := found
          cases h
          refine ⟨fun _ h => ?_, nofun, hpair⟩
          cases h
          obtain ⟨leaf, hleaf⟩ := hserved certified notAfter issued rfl
          refine ⟨ca, leaf, hplace.congr (hcaKept caCrt (by simp)), hleaf, fun t ht => ?_⟩
          simp only [Option.ite_none_right_eq_some, Option.some.injEq] at ht
          obtain ⟨hsoon, rfl⟩ := ht
          exact lt_renewAt hleaf hsoon

/-! ### A directory that holds both pairs -/

def newYear1970 : Moment :=
  { newYear2030 with year := 1970, year_lt := by decide, day_mem := by decide }

theorem utc_newYear2030 : 1950 ≤ newYear2030.year ∧ newYear2030.year < 2050 := by decide

/-- A certificate for some names, from 1970 to 2030. -/
def sixtyYears (names : List GeneralName) : Outline where
  serial := .natural 1
  issuer := []
  notBefore := .utc newYear1970 (by decide)
  notAfter := .utc newYear2030 utc_newYear2030
  subject := []
  extensions := some [.altNames false names]

def localhost : Text := "localhost".toList

def caCert : Outline := sixtyYears []

def probeCert : Outline := sixtyYears [.dns localhost]

def leafCert : Outline := sixtyYears [.dns localhost, .ip (.v4 ⟨127, 0, 0, 1⟩), .ip (.v6 ⟨0, 0, 0, 0, 0, 0, 0, 1⟩)]

/-- Libraries that know these three certificates alone. -/
def threeCerts : Library Unit where
  generate _ := some ()
  keyId _ := []
  selfSigned _ _ := none
  signedBy params _ _ :=
    if params.subjectAltNames = [.dnsName localhost] ∧ params.notAfter = 1893456000 * second then some probeCert.der
    else none
  pem _ := []
  fromPem _ := some caCert.der
  keyPem _ := []
  keyFromPem _ := some ()
  keyDer _ := []
  sections bytes :=
    if bytes = encode "-----BEGIN C".toList then some [(.certificate, leafCert.der)] else some [(.privateKey, [])]
  fromDer _ _ := true
  trustAnchor _ := true
  isServerName _ := true
  verify root leaf _ at' := (root = caCert.der ∧ leaf ∈ [probeCert.der, leafCert.der]) ∧ 0 ≤ at' ∧ at' ≤ 1893456000

def bothPairs : FileDir := fun name =>
  if name = tlsCrt then some (.file (encode "-----BEGIN C".toList) 0o644)
  else if [caCrt, caKey, tlsKey].contains name then some (.file (encode "-----BEGIN K".toList) 0o600)
  else none

theorem sixtyYears_fits : ∀ o ∈ [caCert, probeCert, leafCert], o.contents.length < 2 ^ 32 := by
  decide +kernel

theorem epochSeconds_1970 : newYear1970.epochSeconds = 0 := by
  rw [Moment.epochSeconds, daysBefore, daysBefore, daysBefore_year, daysBefore_year]
  norm_num [newYear1970, newYear2030]

theorem epochSeconds_2030 : newYear2030.epochSeconds = 1893456000 := by
  rw [Moment.epochSeconds, daysBefore, daysBefore, daysBefore_year, daysBefore_year]
  norm_num [newYear2030]

theorem validity_sixtyYears {names : List GeneralName} (h : (sixtyYears names).contents.length < 2 ^ 32) :
    validity (sixtyYears names).der = some (0, 1893456000) := by
  rw [validity_der (Outline.fitting h)]
  exact congrArg some (Prod.ext epochSeconds_1970 epochSeconds_2030)

theorem readNotAfter_sixtyYears {names : List GeneralName} (h : (sixtyYears names).contents.length < 2 ^ 32) :
    readNotAfter (sixtyYears names).der = some 1893456000 :=
  readNotAfter_of_validity (validity_sixtyYears h)

theorem x509_threeCerts :
    X509 threeCerts fun root leaf => root = caCert.der ∧ leaf ∈ [probeCert.der, leafCert.der] where
  verify {root leaf name at'} h := by
    obtain ⟨hissued, hvalid⟩ := of_decide_eq_true h
    refine ⟨hissued, (0, 1893456000), ?_, hvalid⟩
    obtain ⟨-, hleaf⟩ := hissued
    simp only [List.mem_cons, List.not_mem_nil, or_false] at hleaf
    rcases hleaf with rfl | rfl
    · exact validity_sixtyYears (sixtyYears_fits probeCert (by simp))
    · exact validity_sixtyYears (sixtyYears_fits leafCert (by simp))
  signedBy {params key issuer der} h := by
    simp only [threeCerts, Option.ite_none_right_eq_some, Option.some.injEq] at h
    obtain ⟨⟨hnames, hnotAfter⟩, rfl⟩ := h
    refine ⟨probeCert, sixtyYears_fits probeCert (by simp), rfl, ?_, ?_⟩
    · rw [hnames]
      rfl
    · rw [hnotAfter, Int.mul_ediv_cancel _ (by decide)]
      exact epochSeconds_2030
  selfSigned h := by cases h
  fromDer _ := rfl
  fromPem h := by cases h

/-- The CA in the directory. -/
def sixtyYearCa : LocalCa Unit := ⟨caCert.der, "-----BEGIN K".toList, ⟨caParams threeCerts (), ()⟩⟩

theorem notAfter_sixtyYearCa : sixtyYearCa.notAfter = some 1893456000 :=
  readNotAfter_sixtyYears (sixtyYears_fits caCert (by simp))

/-- A client takes the certificates at any time that they are valid. -/
theorem check_threeCerts {leaf : Bytes} (hleaf : leaf ∈ [probeCert.der, leafCert.der]) (names : Names) {now : Int}
    (hnow : secs now ≤ 1893456000) : sixtyYearCa.check threeCerts leaf names now = .ok () := by
  have hverify : ∀ name, threeCerts.verify sixtyYearCa.cert leaf name (secs now) = true := fun _ =>
    decide_eq_true ⟨⟨rfl, hleaf⟩, Int.ediv_nonneg (le_max_right _ _) (by decide), hnow⟩
  have hanchor : threeCerts.trustAnchor sixtyYearCa.cert = true := rfl
  rw [LocalCa.check, if_pos hanchor]
  refine Fallible.forM_eq_ok.mpr fun name _ => ?_
  rw [LocalCa.ask, hverify]
  cases name <;> rfl

theorem sign_probe : ∃ leaf, sixtyYearCa.sign threeCerts .probe (Names.one (Name.parse localhost))
    (sinceEpoch (1893456000 - 86400)) = .ok leaf ∧ leaf.cert = probeCert.der := by
  have husable : sixtyYearCa.usable (sinceEpoch (1893456000 - 86400)) = .ok () := by
    rw [LocalCa.usable, notAfter_sixtyYearCa]
    rfl
  have hend : sixtyYearCa.endTime (sinceEpoch (1893456000 - 86400)) leafLifetime = .ok (1893456000 * second) := by
    rw [LocalCa.endTime, notAfter_sixtyYearCa]
    rfl
  have hsans : (Names.one (Name.parse localhost)).list.mapM Name.san = .ok [.dnsName localhost] := rfl
  refine ⟨⟨probeCert.der, [], ()⟩, ?_, rfl⟩
  rw [LocalCa.sign, husable, hsans, hend]
  rfl

theorem load_bothPairs : LocalCa.load threeCerts bothPairs = .ok (some sixtyYearCa) := by
  have hfile : bothPairs caCrt = some (.file (encode "-----BEGIN K".toList) 0o600) := rfl
  have hcert : readCaCert threeCerts bothPairs = .ok ("-----BEGIN K".toList, caCert.der) :=
    readCaCert_of_file hfile rfl
  have hsecret : resolveFile bothPairs caKey = some "-----BEGIN K".toList := by
    have hread : readFile bothPairs caKey = some (encode "-----BEGIN K".toList) := rfl
    rw [resolveFile, hread]
    simp only [Option.bind_eq_bind, Option.bind_some, decode_encode]
    rfl
  have hconsistent : sixtyYearCa.consistent threeCerts = .ok () := by
    obtain ⟨leaf, hsign, hleaf⟩ := sign_probe
    have hcheck := @check_threeCerts leaf.cert (by simp [hleaf]) (Names.one (Name.parse localhost))
      (sinceEpoch (1893456000 - 86400)) (by decide)
    have hends : orElse .noEndDate sixtyYearCa.notAfter = .ok 1893456000 := orElse_eq_ok.mpr notAfter_sixtyYearCa
    rw [LocalCa.consistent]
    exact Fallible.bind_eq_ok.mpr ⟨1893456000, hends, Fallible.bind_eq_ok.mpr ⟨leaf, hsign, hcheck⟩⟩
  have hpresent : (bothPairs caCrt).isSome = true ∧ (bothPairs caKey).isSome = true := ⟨rfl, rfl⟩
  rw [LocalCa.load, hpresent.1, hpresent.2]
  refine Fallible.bind_eq_ok.mpr ⟨_, hcert, Fallible.bind_eq_ok.mpr ⟨_, orElse_eq_ok.mpr hsecret, ?_⟩⟩
  refine Fallible.bind_eq_ok.mpr ⟨(), rfl, ?_⟩
  rw [sixtyYearCa] at hconsistent
  simp only [hconsistent]
  rfl

theorem kept_bothPairs {now : Int} (hnow : secs now ≤ 1893456000) :
    kept threeCerts bothPairs sixtyYearCa (Names.new []) now = some (⟨[leafCert.der], .pkcs8 []⟩, 1893456000) := by
  have hserved : readServed threeCerts bothPairs = some ⟨[leafCert.der], .pkcs8 []⟩ := by
    have hcert : readFile bothPairs tlsCrt = some (encode "-----BEGIN C".toList) := rfl
    have hkey : resolveFile bothPairs tlsKey = some "-----BEGIN K".toList := by
      have hread : readFile bothPairs tlsKey = some (encode "-----BEGIN K".toList) := rfl
      rw [resolveFile, hread]
      simp only [Option.bind_eq_bind, Option.bind_some, decode_encode]
      rfl
    have hcertPem : parsePem threeCerts (encode "-----BEGIN C".toList) = some [(.certificate, leafCert.der)] := rfl
    have hkeyPem : parsePem threeCerts (encode "-----BEGIN K".toList) = some [(.privateKey, [])] := rfl
    rw [readServed, hcert, hkey]
    simp only [Option.bind_eq_bind, Option.bind_some]
    rw [hcertPem, hkeyPem]
    rfl
  have hnames : (CertificateNames.read leafCert.der).altNames = (Names.new []).altNames := by
    rw [names_der (Outline.fitting (sixtyYears_fits leafCert (by simp)))]
    rfl
  have hpresent : ¬ ((bothPairs tlsCrt).isNone = true ∨ (bothPairs tlsKey).isNone = true) := by decide
  have hends : readNotAfter leafCert.der = some 1893456000 := readNotAfter_sixtyYears (sixtyYears_fits leafCert (by simp))
  rw [kept, if_neg hpresent, hserved]
  simp only [Option.bind_eq_bind, Option.bind_some, List.head?_cons]
  rw [if_neg (not_not.mpr hnames), check_threeCerts (by simp) _ hnow, hends]
  rfl

theorem ensure_bothPairs {now : Int} (hnow : secs now ≤ 86400) :
    ensure threeCerts {} 1 bothPairs (Names.new []) now false =
      (bothPairs, .ok ⟨⟨[leafCert.der], .pkcs8 []⟩, 1893456000, none, []⟩) := by
  have hca : ensureCa threeCerts {} 1 bothPairs (Names.new []) now false = (bothPairs, .ok (sixtyYearCa, [])) := by
    rw [ensureCa, load_bothPairs]
  have hleft : secs now + renewBefore < 1893456000 := by
    rw [renewBefore]
    omega
  have hleaf : ensureLeaf threeCerts {} 1 bothPairs sixtyYearCa (Names.new []) now =
      (bothPairs, .ok (⟨[leafCert.der], .pkcs8 []⟩, 1893456000, [])) := by
    have hfilter : (some ((⟨[leafCert.der], .pkcs8 []⟩, 1893456000) : CertifiedKey × Int)).filter
        (fun k => decide (secs now + renewBefore < k.2)) = some (⟨[leafCert.der], .pkcs8 []⟩, 1893456000) :=
      Option.filter_eq_some_iff.mpr ⟨rfl, decide_eq_true hleft⟩
    rw [ensureLeaf, kept_bothPairs (by omega)]
    simp only
    rw [hfilter]
  have hends : ¬ 1893456000 ≤ secs now + leafLifetime := by
    rw [leafLifetime]
    omega
  rw [ensure, hca]
  simp only
  rw [hleaf, notAfter_sixtyYearCa]
  simp [hends]

theorem ensure_pair_kept : ∃ ca leaf, CaInPlace threeCerts ca bothPairs ∧
    Served (fun root leaf => root = caCert.der ∧ leaf ∈ [probeCert.der, leafCert.der]) ca (Names.new []) (86400 * second)
      ⟨[leafCert.der], .pkcs8 []⟩ 1893456000 leaf := by
  have h := (ensure_pair.2 threeCerts _ x509_threeCerts {} 1 bothPairs bothPairs (Names.new []) (86400 * second) false _
    (ensure_bothPairs (by decide))).1 _ rfl
  obtain ⟨ca, leaf, hca, hleaf, -⟩ := h
  exact ⟨ca, leaf, hca, hleaf⟩

/-- A run that died leaves a key staged, which stays where the certificate is not staged: only its own staging removes it.
A certificate that starts to be valid with the epoch is kept a day before it. -/
theorem not_pair_whole :
    (¬ ∀ (f : Faults) (pid : Nat) (cert key : Text × Bytes) (d d' : FileDir) (why : WriteError),
      NamesApart cert.1 key.1 → writePair f pid cert key d = (d', .error why) →
        d' (staged pid cert.1) = none ∧ d' (staged pid key.1) = none) ∧
    ¬ ∀ (lib : Library Unit) (issuedBy : Bytes → Bytes → Prop), X509 lib issuedBy →
      ∀ (f : EnsureFaults) (pid : Nat) (d d' : FileDir) (names : Names) (now : Int) (makeCa : Bool) (e : Ensured),
        ensure lib f pid d names now makeCa = (d', .ok e) →
          ∃ leaf w, e.certified.chain.head? = some leaf ∧ validity leaf = some w ∧ w.1 * second ≤ now ∧ now ≤ w.2 * second := by
  refine ⟨fun h => ?_, fun h => ?_⟩
  · let left : FileDir := fun name => if name = staged 1 tlsKey then some (.file [] 0o600) else none
    have hnames := apart_tls.distinct 1
    have hwrite : writePair { cert := { create := true } } 1 (tlsCrt, []) (tlsKey, []) left =
        ((left.remove (staged 1 tlsCrt)).remove (staged 1 tlsCrt), .error (.writing tlsCrt)) := rfl
    have hkey := (h _ _ _ _ _ _ _ apart_tls hwrite).2
    rw [FileDir.remove_of_ne _ hnames.tmp_keyTmp.symm, FileDir.remove_of_ne _ hnames.tmp_keyTmp.symm] at hkey
    simp only [left, if_pos] at hkey
    cases hkey
  · obtain ⟨leaf, w, hleaf, hw, hstart, -⟩ := h threeCerts _ x509_threeCerts {} 1 bothPairs bothPairs (Names.new [])
      (-86400 * second) false _ (ensure_bothPairs (by decide))
    cases hleaf
    rw [leafCert, validity_sixtyYears (sixtyYears_fits leafCert (by simp))] at hw
    cases hw
    exact absurd hstart (by decide)

end Mcpdef.Tls
