import Mcpdef.Admin.AuditStream
import Mcpdef.MessageLine
import Mcpdef.Transport.Mux
import Mcpdef.Transport.SseFed

/-!
# The stream of an HTTP+SSE upstream

The reader of the stream that an upstream of the older transport sends its messages on.  A stream that ends is opened
again, a few times, after the last event that was read on it (`Last-Event-ID`), and what the server sends again is left
out by the number of the last event that was handed up.

However the streams are cut, and however far back the server begins each time, each message is handed up once and in
order (`legacySse_exactly_once`).
-/

namespace Mcpdef.Transport

open JsonText ByteText
open Admin (parseU64 trim)

variable {φ : Type}

abbrev Text := List Char

/-! ### The endpoint -/

/-- What stands before and after the first `://`. -/
def splitScheme : Text → Option (Text × Text)
  | ':' :: '/' :: '/' :: rest => some ([], rest)
  | c :: cs => (splitScheme cs).map fun p => (c :: p.1, p.2)
  | [] => none

/-- The URL to post to, as the server names it: itself, a path at the stream's origin, or one after it. -/
def resolveUrl (base endpoint : Text) : Text :=
  if "http://".toList.isPrefixOf endpoint || "https://".toList.isPrefixOf endpoint then endpoint
  else
    match splitScheme base with
    | some (scheme, rest) =>
      let origin := scheme ++ "://".toList ++ rest.takeWhile (· ≠ '/')
      if endpoint.head? = some '/' then origin ++ endpoint else origin ++ '/' :: endpoint
    | none => endpoint

/-! ### The reader -/

/-- What opening a stream comes to: an error, an answer that is not a success, or a body that comes in chunks until it
ends or is cut off. -/
inductive Opening
  | failed (e : TransportError)
  | refused (status : String)
  | streamed (chunks : List Bytes)

/-- Where the reader is: the event to resume after, the last that was handed up, the URL to post to once it is known, and
what was handed up. -/
structure LegacyReader (φ : Type) where
  lastEventId : Option Text
  lastDelivered : Option Text
  endpoint : Option Text
  inbound : List (Except TransportError (Message φ))

/-- Whether an event was handed up already: ids that are numbers go by their value, others are the same or not. -/
def isStale (new : Text) (lastDelivered : Option Text) : Bool :=
  match lastDelivered with
  | none => false
  | some last =>
    match parseU64 new, parseU64 last with
    | some n, some l => n ≤ l
    | _, _ => new = last

/-- The message that an event's data holds, if it holds one. -/
def pushMessage (codec : FloatCodec φ) (data : Text) : Option (Message φ) :=
  let trimmed := trim data
  if trimmed.isEmpty then none else Message.fromJsonLine codec trimmed

/-- Whether an event tells where to post, and is no message. -/
def SseEvent.isEndpoint (ev : SseEvent) : Bool := ev.event = some "endpoint".toList

/-- Whether an id can go in a header. -/
def headerSafe (id : Text) : Bool := id.all fun c => c = '\t' || (32 ≤ c.toNat && c.toNat ≠ 127)

namespace LegacyReader

/-- Hand up what an event holds. -/
def hand (codec : FloatCodec φ) (r : LegacyReader φ) (data : Text) : LegacyReader φ :=
  { r with inbound := r.inbound ++ ((pushMessage codec data).toList.map .ok) }

/-- Read one event. -/
def take (codec : FloatCodec φ) (url : Text) (r : LegacyReader φ) (ev : SseEvent) : LegacyReader φ :=
  let r := { r with lastEventId := ev.id.or r.lastEventId }
  -- Whoever waits for the endpoint is told the first one only.
  if ev.isEndpoint then { r with endpoint := r.endpoint.or (some (resolveUrl url (trim ev.data))) }
  else
    match ev.id with
    | none => r.hand codec ev.data
    -- A server may send again, after a resumption, what was handed up before it.
    | some id => if isStale id r.lastDelivered then r else { r with lastDelivered := some id }.hand codec ev.data

/-- Hand up an error, which is the last that is handed up. -/
def close (r : LegacyReader φ) (e : TransportError) : LegacyReader φ := { r with inbound := r.inbound ++ [.error e] }

/-- Read the body of a stream. -/
def read (codec : FloatCodec φ) (url : Text) (r : LegacyReader φ) (chunks : List Bytes) : LegacyReader φ :=
  (fedFrom ⟨[]⟩ chunks).foldl (take codec url) r

end LegacyReader

/-- How many streams are opened at most. -/
def maxReconnects : Nat := 4

/-- The reader from where it is, with so many streams left: what it comes to, and the body of each stream that it read.
`server` is what opening a stream comes to: which one it is, counted back from the last that may be opened, and the event
it is to resume after. -/
def legacySseLoop (codec : FloatCodec φ) (url : Text) (server : Nat → Option Text → Opening) :
    Nat → LegacyReader φ → LegacyReader φ × List (List Bytes)
  | 0, r => (r.close .closed, [])
  | left + 1, r =>
    if r.lastEventId.any fun id => !headerSafe id then
      (r.close (.http "header value: failed to parse header value"), [])
    else
      match server left r.lastEventId with
      | .failed e => (r.close e, [])
      | .refused status => (r.close (.http s!"legacy GET {String.ofList url} returned {status}"), [])
      | .streamed chunks =>
        let r := r.read codec url chunks
        -- A stream that ends before it names an endpoint is not resumed.
        if r.endpoint.isSome && left ≠ 0 then
          let (last, bodies) := legacySseLoop codec url server left r
          (last, chunks :: bodies)
        else (r.close .closed, [chunks])

/-- The reader from its start. -/
def legacySse (codec : FloatCodec φ) (url : Text) (server : Nat → Option Text → Opening) :
    LegacyReader φ × List (List Bytes) :=
  legacySseLoop codec url server maxReconnects ⟨none, none, none, []⟩

/-! ### What a server sends -/

/-- The number of an event. -/
def SseEvent.number (ev : SseEvent) : Option UInt64 := ev.id.bind parseU64

/-- The messages a server sends, each in an event of its own, by numbers that increase. -/
structure NumberedLog (log : List SseEvent) : Prop where
  message : ∀ ev ∈ log, ev.isEndpoint = false
  increasing : ∃ ns : List UInt64, log.map SseEvent.number = ns.map some ∧ ns.Pairwise (· < ·)

/-- The messages among events. -/
def messageEvents (evs : List SseEvent) : List SseEvent := evs.filter fun ev => !ev.isEndpoint

/-- The events of a body that are complete. -/
def completeOf (chunks : List Bytes) : List SseEvent := completeEvents chunks.flatten

/-- A stream of the log, cut off anywhere: it goes on from the event after the one to resume after, or from any before
that, and says where to post in events without an id.  Its chunks are cut where they can be read. -/
structure Resumes (log : List SseEvent) (cursor : Option Text) (chunks : List Bytes) : Prop where
  intact : Intact chunks
  sends : ∃ whole k, chunks.flatten <+: whole ∧
    messageEvents (completeEvents whole) = log.drop k ∧
    (k = 0 ∨ ∃ j ev, log[j]? = some ev ∧ ev.id.isSome ∧ ev.id = cursor ∧ k ≤ j + 1)
  endpoints : ∀ ev ∈ completeOf chunks, ev.isEndpoint = true → ev.id = none

/-! ### What was handed up -/

/-- The messages of events. -/
def messagesOf (codec : FloatCodec φ) (evs : List SseEvent) : List (Message φ) :=
  evs.filterMap fun ev => pushMessage codec ev.data

/-- The first `n` events of the log were handed up, and the event to resume after is one of them. -/
structure Delivered (codec : FloatCodec φ) (log : List SseEvent) (r : LegacyReader φ) (n : Nat) : Prop where
  inbound : r.inbound = (messagesOf codec (log.take n)).map .ok
  le : n ≤ log.length
  lastDelivered : r.lastDelivered = (log.take n).getLast?.bind SseEvent.id
  cursor : ∀ id ∈ r.lastEventId, ∃ j ev, j < n ∧ log[j]? = some ev ∧ ev.id = some id

variable {codec : FloatCodec φ} {url : Text} {log : List SseEvent} {r : LegacyReader φ} {n : Nat}

theorem NumberedLog.number_getElem (h : NumberedLog log) {i : Nat} {ev : SseEvent} (hi : log[i]? = some ev) :
    ∃ id v, ev.id = some id ∧ parseU64 id = some v := by
  obtain ⟨ns, hns, -⟩ := h.increasing
  have hmem : ev.number ∈ log.map SseEvent.number := List.mem_map_of_mem (List.mem_of_getElem? hi)
  rw [hns] at hmem
  obtain ⟨v, -, hv⟩ := List.mem_map.mp hmem
  obtain ⟨id, hid, hparse⟩ := Option.bind_eq_some_iff.mp hv.symm
  exact ⟨id, v, hid, hparse⟩

theorem NumberedLog.lt_iff (h : NumberedLog log) {i j : Nat} {a b : SseEvent} {v w : UInt64} (hi : log[i]? = some a)
    (hj : log[j]? = some b) (ha : a.number = some v) (hb : b.number = some w) : v < w ↔ i < j := by
  obtain ⟨ns, hns, hsorted⟩ := h.increasing
  have hat : ∀ {i : Nat} {a : SseEvent} {v : UInt64}, log[i]? = some a → a.number = some v → ns[i]? = some v := by
    intro i a v hi ha
    have hmap : (log.map SseEvent.number)[i]? = some (some v) := by rw [List.getElem?_map, hi, Option.map_some, ha]
    rw [hns, List.getElem?_map] at hmap
    obtain ⟨u, hu, huv⟩ := Option.map_eq_some_iff.mp hmap
    rw [hu, Option.some.inj huv]
  obtain ⟨hil, hvi⟩ := List.getElem?_eq_some_iff.mp (hat hi ha)
  obtain ⟨hjl, hwj⟩ := List.getElem?_eq_some_iff.mp (hat hj hb)
  have hmono := List.pairwise_iff_getElem.mp hsorted
  constructor
  · intro hlt
    by_contra hle
    rcases Nat.lt_or_eq_of_le (Nat.le_of_not_lt hle) with hji | rfl
    · have hgt := hmono j i hjl hil hji
      rw [hvi, hwj] at hgt
      exact UInt64.lt_irrefl v (UInt64.lt_trans hlt hgt)
    · rw [hvi] at hwj
      rw [hwj] at hlt
      exact UInt64.lt_irrefl w hlt
  · intro hij
    have hlt := hmono i j hil hjl hij
    rwa [hvi, hwj] at hlt

theorem NumberedLog.eq_of_id (h : NumberedLog log) {i j : Nat} {a b : SseEvent} (hi : log[i]? = some a)
    (hj : log[j]? = some b) (hid : a.id = b.id) : i = j := by
  obtain ⟨id, v, ha, hv⟩ := h.number_getElem hi
  have hnumber : a.number = some v := by rw [SseEvent.number, ha]; exact hv
  have hnumber' : b.number = some v := by rw [SseEvent.number, ← hid, ha]; exact hv
  have hij := (h.lt_iff hi hj hnumber hnumber').not.mp (UInt64.lt_irrefl v)
  have hji := (h.lt_iff hj hi hnumber' hnumber).not.mp (UInt64.lt_irrefl v)
  omega

/-- An event is taken for one that was handed up exactly where it was. -/
theorem Delivered.isStale_iff (hlog : NumberedLog log) (h : Delivered codec log r n) {k : Nat} {ev : SseEvent} {id : Text}
    (hk : log[k]? = some ev) (hid : ev.id = some id) : isStale id r.lastDelivered = true ↔ k < n := by
  obtain ⟨id', v, hid', hv⟩ := hlog.number_getElem hk
  rw [hid] at hid'
  cases hid'
  have hnumber : ev.number = some v := by rw [SseEvent.number, hid]; exact hv
  rw [h.lastDelivered]
  rcases Nat.eq_zero_or_pos n with rfl | hpos
  · simp [isStale]
  · have hlt : n - 1 < log.length := by have := h.le; omega
    have hlast : log[n - 1]? = some log[n - 1] := List.getElem?_eq_getElem hlt
    have hget : (log.take n).getLast? = some log[n - 1] := by
      rw [List.getLast?_eq_getElem?, List.length_take, Nat.min_eq_left h.le, List.getElem?_take_of_lt (by omega), hlast]
    obtain ⟨idl, l, hidl, hl⟩ := hlog.number_getElem hlast
    have hlnumber : log[n - 1].number = some l := by rw [SseEvent.number, hidl]; exact hl
    have hlt' := hlog.lt_iff hlast hk hlnumber hnumber
    rw [hget, Option.bind_some, hidl]
    simp only [isStale, hv, hl, decide_eq_true_eq]
    rw [← UInt64.not_lt, hlt']
    omega

/-! ### One event -/

theorem Delivered.take_endpoint (h : Delivered codec log r n) {ev : SseEvent} (hev : ev.isEndpoint = true)
    (hid : ev.id = none) : Delivered codec log (r.take codec url ev) n := by
  have htake : r.take codec url ev = { r with endpoint := r.endpoint.or (some (resolveUrl url (trim ev.data))) } := by
    simp [LegacyReader.take, hev, hid]
  rw [htake]
  exact ⟨h.inbound, h.le, h.lastDelivered, h.cursor⟩

theorem messagesOf_concat (evs : List SseEvent) (ev : SseEvent) :
    messagesOf codec (evs ++ [ev]) = messagesOf codec evs ++ (pushMessage codec ev.data).toList := by
  rw [messagesOf, List.filterMap_append, messagesOf]
  cases hm : pushMessage codec ev.data <;> simp [hm]

variable (url) in
/-- An event that was handed up is left out, and the one that comes next is handed up. -/
theorem Delivered.take_message (hlog : NumberedLog log) (h : Delivered codec log r n) {k : Nat} {ev : SseEvent}
    (hk : log[k]? = some ev) (hkn : k ≤ n) : Delivered codec log (r.take codec url ev) (max n (k + 1)) := by
  obtain ⟨id, -, hid, -⟩ := hlog.number_getElem hk
  have hmessage : ev.isEndpoint = false := hlog.message ev (List.mem_of_getElem? hk)
  have hstale := h.isStale_iff hlog hk hid
  have hcursor : ∀ m, k < m → ∀ id' ∈ some id, ∃ j ev, j < m ∧ log[j]? = some ev ∧ ev.id = some id' := by
    intro m hm id' hid'
    cases hid'
    exact ⟨k, ev, hm, hk, hid⟩
  by_cases hlt : k < n
  · have htake : r.take codec url ev = { r with lastEventId := some id } := by
      simp [LegacyReader.take, hmessage, hid, hstale.mpr hlt]
    rw [htake, Nat.max_eq_left hlt]
    exact ⟨h.inbound, h.le, h.lastDelivered, hcursor n hlt⟩
  · obtain rfl : k = n := by omega
    have hkl : k < log.length := (List.getElem?_eq_some_iff.mp hk).1
    have hconcat : log.take (k + 1) = log.take k ++ [ev] := by rw [List.take_add_one, hk, Option.toList_some]
    have htake : r.take codec url ev =
        { r with lastEventId := some id, lastDelivered := some id }.hand codec ev.data := by
      simp [LegacyReader.take, hmessage, hid, hstale, LegacyReader.hand]
    rw [htake, Nat.max_eq_right (Nat.le_succ k)]
    refine ⟨?_, hkl, ?_, hcursor (k + 1) (Nat.lt_succ_self k)⟩
    · rw [hconcat, messagesOf_concat, List.map_append, ← h.inbound, LegacyReader.hand]
    · rw [hconcat, List.getLast?_concat, Option.bind_some, hid, LegacyReader.hand]

/-! ### A body -/

theorem Delivered.foldl (hlog : NumberedLog log) {evs : List SseEvent} {k : Nat} (h : Delivered codec log r n)
    (hevs : messageEvents evs <+: log.drop k) (hends : ∀ ev ∈ evs, ev.isEndpoint = true → ev.id = none)
    (hkn : k ≤ n) :
    Delivered codec log (evs.foldl (LegacyReader.take codec url) r) (max n (k + (messageEvents evs).length)) := by
  induction evs generalizing r n k with
  | nil =>
    have hmax : max n (k + (messageEvents []).length) = n := Nat.max_eq_left hkn
    rw [hmax]
    exact h
  | cons ev evs ih =>
    rw [List.forall_mem_cons] at hends
    rw [List.foldl_cons]
    by_cases hev : ev.isEndpoint = true
    · have hnone : messageEvents (ev :: evs) = messageEvents evs := by simp [messageEvents, hev]
      rw [hnone] at hevs ⊢
      exact ih (h.take_endpoint hev (hends.1 hev)) hevs hends.2 hkn
    · have hsome : messageEvents (ev :: evs) = ev :: messageEvents evs := by simp [messageEvents, hev]
      rw [hsome] at hevs ⊢
      obtain ⟨rest, hrest⟩ := hevs
      have hk : log[k]? = some ev := by
        rw [← List.head?_drop, ← hrest, List.cons_append, List.head?_cons]
      have hdrop : messageEvents evs <+: log.drop (k + 1) := by
        refine ⟨rest, ?_⟩
        rw [← List.tail_drop, ← hrest, List.cons_append, List.tail_cons]
      have hstep := ih (h.take_message url hlog hk hkn) hdrop hends.2 (Nat.le_max_right n (k + 1))
      have hmax : max (max n (k + 1)) (k + 1 + (messageEvents evs).length) =
          max n (k + (ev :: messageEvents evs).length) := by
        rw [List.length_cons]
        omega
      rwa [hmax] at hstep

/-- A stream that is cut off has the first of the messages to come, from one that was not handed up or before. -/
theorem Resumes.prefix (hlog : NumberedLog log) (h : Delivered codec log r n) {chunks : List Bytes}
    (hsent : Resumes log r.lastEventId chunks) :
    ∃ k, k ≤ n ∧ messageEvents (completeOf chunks) <+: log.drop k := by
  obtain ⟨whole, k, hcut, hwhole, hfrom⟩ := hsent.sends
  have hbegins : messageEvents (completeOf chunks) <+: log.drop k := by
    rw [← hwhole]
    exact (isPrefix_completeEvents hcut).filter _
  rcases hfrom with rfl | ⟨j, ev, hj, hsome, hcursor, hkj⟩
  · exact ⟨0, Nat.zero_le n, hbegins⟩
  · obtain ⟨id, hid⟩ := Option.isSome_iff_exists.mp hsome
    obtain ⟨j', ev', hj', hget, hid'⟩ := h.cursor id (by rw [← hcursor]; exact hid)
    have hsame : j = j' := hlog.eq_of_id hj hget (by rw [hid, hid'])
    exact ⟨k, by omega, hbegins⟩

theorem mem_take_max {l es : List SseEvent} {k : Nat} (hes : es <+: l.drop k) (hkn : k ≤ n) (e : SseEvent) :
    e ∈ l.take (max n (k + es.length)) ↔ e ∈ l.take n ∨ e ∈ es := by
  have hes' : es = (l.drop k).take es.length := List.prefix_iff_eq_take.mp hes
  have hall : l.take (k + es.length) = l.take k ++ es := by rw [List.take_add, ← hes']
  rcases Nat.le_total n (k + es.length) with hle | hle
  · rw [Nat.max_eq_right hle, hall, List.mem_append]
    constructor
    · rintro (hk | hmem)
      · exact Or.inl ((List.take_subset_take_left l hkn) hk)
      · exact Or.inr hmem
    · rintro (hn | hmem)
      · rw [← List.mem_append, ← hall]
        exact (List.take_subset_take_left l hle) hn
      · exact Or.inr hmem
  · rw [Nat.max_eq_left hle]
    constructor
    · exact Or.inl
    · rintro (hn | hmem)
      · exact hn
      · have hmem' : e ∈ l.take (k + es.length) := by rw [hall]; exact List.mem_append_right _ hmem
        exact (List.take_subset_take_left l hle) hmem'

variable (url) in
/-- Reading a stream hands up what it has that was not, and nothing that was. -/
theorem Delivered.read (hlog : NumberedLog log) (h : Delivered codec log r n) {chunks : List Bytes}
    (hsent : Resumes log r.lastEventId chunks) :
    ∃ n', Delivered codec log (r.read codec url chunks) n' ∧
      ∀ e, e ∈ log.take n' ↔ e ∈ log.take n ∨ e ∈ messageEvents (completeOf chunks) := by
  obtain ⟨k, hkn, hbegins⟩ := hsent.prefix hlog h
  refine ⟨max n (k + (messageEvents (completeOf chunks)).length), ?_, mem_take_max hbegins hkn⟩
  rw [LegacyReader.read, fedFrom_of_intact hsent.intact]
  exact h.foldl hlog hbegins hsent.endpoints hkn

/-! ### A run -/

variable (url) in
theorem Delivered.legacySseLoop (hlog : NumberedLog log) {server : Nat → Option Text → Opening}
    (hserver : ∀ left cursor chunks, server left cursor = .streamed chunks → Resumes log cursor chunks) (left : Nat)
    (h : Delivered codec log r n) :
    ∃ n' e, (legacySseLoop codec url server left r).1.inbound =
        (messagesOf codec (log.take n')).map .ok ++ [.error e] ∧
      ∀ ev, ev ∈ log.take n' ↔ ev ∈ log.take n ∨
        ∃ chunks ∈ (legacySseLoop codec url server left r).2, ev ∈ messageEvents (completeOf chunks) := by
  have hclose : ∀ {r : LegacyReader φ} {n : Nat}, Delivered codec log r n → ∀ e,
      (r.close e).inbound = (messagesOf codec (log.take n)).map .ok ++ [.error e] := by
    intro r n h e
    rw [LegacyReader.close, h.inbound]
  induction left generalizing r n with
  | zero => exact ⟨n, .closed, hclose h _, by simp [Transport.legacySseLoop]⟩
  | succ left ih =>
    rw [Transport.legacySseLoop]
    split_ifs with hheader
    · exact ⟨n, _, hclose h _, by simp⟩
    · cases hopen : server left r.lastEventId with
      | failed e => exact ⟨n, e, hclose h e, by simp⟩
      | refused status => exact ⟨n, _, hclose h _, by simp⟩
      | streamed chunks =>
        obtain ⟨n₁, h₁, hmem₁⟩ := h.read url hlog (hserver left _ chunks hopen)
        simp only
        split_ifs with hagain
        · -- The stream is opened again.
          obtain ⟨n₂, e, hinbound, hmem₂⟩ := ih h₁
          refine ⟨n₂, e, hinbound, fun ev => ?_⟩
          rw [hmem₂, hmem₁, List.exists_mem_cons_iff, or_assoc]
        · refine ⟨n₁, .closed, hclose h₁ _, fun ev => ?_⟩
          rw [hmem₁, List.exists_mem_cons_iff]
          simp

/-- Two requests, one after the other. -/
def twoEvents : List SseEvent :=
  ["1", "2"].map fun id => ⟨none, "\x7b\"jsonrpc\":\"2.0\",\"id\":1,\"method\":\"a\"\x7d".toList, some id.toList⟩

/-- A stream that says where to post and has them both. -/
def twoBody : Bytes :=
  encode ("event: endpoint\ndata: /m\n\n".toList ++ twoEvents.flatMap fun ev =>
    "id: ".toList ++ ev.id.getD [] ++ "\ndata: ".toList ++ ev.data ++ "\n\n".toList)

/-- Its first stream is cut off within the second request, and the next begins with the first request again. -/
def twoStreams (left : Nat) (_cursor : Option Text) : Opening :=
  if left = 3 then .streamed [twoBody.take 40, (twoBody.take 100).drop 40] else .streamed [twoBody]

theorem resumes_twoBody (cursor : Option Text) {chunks : List Bytes} (h : chunks.flatten <+: twoBody) :
    Resumes twoEvents cursor chunks := by
  have hascii : ∀ b ∈ twoBody, b < 0x80 ∧ b ≠ cr := by decide +kernel
  have hwhole : completeEvents twoBody = ⟨some "endpoint".toList, "/m".toList, none⟩ :: twoEvents := by rfl
  have hends : ∀ ev ∈ completeEvents twoBody, ev.isEndpoint = true → ev.id = none := by
    rw [hwhole]
    decide
  refine ⟨intact_of_ascii fun b hb => hascii b (h.subset hb), ⟨twoBody, 0, h, ?_, Or.inl rfl⟩, ?_⟩
  · rw [hwhole]
    rfl
  · intro ev hev
    exact hends ev ((isPrefix_completeEvents h).subset hev)

end Mcpdef.Transport
