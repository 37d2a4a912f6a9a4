import HaresBears.ByteIO
import HaresBears.Core

/-!
Messages as bytes. A type byte is followed by the fields in order; a party start
cuts its id and the number of its participants to 32 bits. The decoder accepts a
message exactly if the message is representable and its encoding begins the data.
-/
namespace HaresBears

open ExactParser

inductive WireType where
  | request
  | reply
  | partyStart
  deriving DecidableEq, Repr

namespace WireType

def code : WireType → UInt8
  | request => 1
  | reply => 2
  | partyStart => 3

def ofCode (b : UInt8) : Option WireType :=
  if b = 1 then some request
  else if b = 2 then some reply
  else if b = 3 then some partyStart
  else none

theorem ofCode_eq_some {b : UInt8} {t : WireType} : ofCode b = some t ↔ b = t.code := by
  unfold ofCode
  cases t <;> simp only [code] <;> split_ifs <;> simp_all

end WireType

def serialize : Message → List UInt8
  | .request m =>
    ((({} : ByteWriter).byte WireType.request.code).u m.requestTicket.pid).u m.requestTicket.ts
      |>.take
  | .reply m =>
    ((((({} : ByteWriter).byte WireType.reply.code).u m.senderTicket.pid).u m.senderTicket.ts).u
      m.requestTicket.pid).u m.requestTicket.ts |>.take
  | .partyStart m =>
    let w := (((({} : ByteWriter).byte WireType.partyStart.code).u m.senderTicket.pid).u
      m.senderTicket.ts).u m.partyId.toUInt32
    let count := UInt32.ofNat m.participants.length
    (m.participants.foldl (fun w pid => w.u pid) (w.u count)).take

/-- The loop over the participants, which are pushed behind those read before. -/
def readParticipants (participants : List Pid) : ℕ → Parser ByteReader Fault (List Pid)
  | 0 => pure participants
  | n + 1 => do
    let pid ← ByteReader.u Pid
    readParticipants (participants ++ [pid]) n

def readRequest : Parser ByteReader Fault Message := do
  let pid ← ByteReader.u Pid
  let ts ← ByteReader.u Timestamp
  return .request ⟨⟨pid, ts⟩⟩

def readReply : Parser ByteReader Fault Message := do
  let sp ← ByteReader.u Pid
  let sts ← ByteReader.u Timestamp
  let rp ← ByteReader.u Pid
  let rts ← ByteReader.u Timestamp
  return .reply ⟨⟨sp, sts⟩, ⟨rp, rts⟩⟩

def readCounted (count : UInt32) : Parser ByteReader Fault (List Pid) :=
  if count > 1000000 then reject else readParticipants [] count.toNat

def readPartyStart : Parser ByteReader Fault Message := do
  let sp ← ByteReader.u Pid
  let sts ← ByteReader.u Timestamp
  let partyId ← ByteReader.u PartyId
  let count ← ByteReader.u UInt32
  let participants ← readCounted count
  return .partyStart ⟨⟨sp, sts⟩, partyId.toUInt64, participants⟩

def readMessage : Parser ByteReader Fault Message := do
  let typeU8 ← ByteReader.byte
  match WireType.ofCode typeU8 with
  | some .request => readRequest
  | some .reply => readReply
  | some .partyStart => readPartyStart
  | none => reject

/-- `Deserialize`; `.ok none` is its `nullopt`. -/
def deserialize (data : List UInt8) : Except Fault (Option Message) :=
  (result readMessage (ByteReader.ofData data)).map (Option.map Prod.fst)

def Message.Representable : Message → Prop
  | .request _ => True
  | .reply _ => True
  | .partyStart m => m.partyId.toNat < 2 ^ 32 ∧ m.participants.length ≤ 1000000

def Message.wireType : Message → WireType
  | .request _ => .request
  | .reply _ => .reply
  | .partyStart _ => .partyStart

def payload : Message → List UInt8
  | .request m => encode m.requestTicket.pid ++ encode m.requestTicket.ts
  | .reply m => encode m.senderTicket.pid ++ (encode m.senderTicket.ts ++
      (encode m.requestTicket.pid ++ encode m.requestTicket.ts))
  | .partyStart m => encode m.senderTicket.pid ++ (encode m.senderTicket.ts ++
      (encode m.partyId.toUInt32 ++ (encode (UInt32.ofNat m.participants.length) ++
        m.participants.flatMap encode)))

theorem serialize_eq (m : Message) : serialize m = m.wireType.code :: payload m := by
  have hloop : ∀ (pids : List Pid) (w : ByteWriter),
      (pids.foldl (fun w pid => w.u pid) w).out = w.out ++ pids.flatMap encode := by
    intro pids
    induction pids with
    | nil => simp
    | cons pid pids ih =>
      intro w
      rw [List.foldl_cons, ih, ByteWriter.out_u, List.flatMap_cons, List.append_assoc]
  cases m <;>
    simp [serialize, payload, Message.wireType, ByteWriter.take, ByteWriter.byte, hloop,
      ByteWriter.out_u]

section Decoding

open ByteReader

def Carries (t : WireType) (m : Message) (bs : List UInt8) : Prop :=
  m.wireType = t ∧ m.Representable ∧ bs = payload m

theorem exact_participants (participants : List Pid) (n : ℕ) :
    Exact rest (readParticipants participants n) (fun ps bs =>
      ∃ qs, qs.length = n ∧ ps = participants ++ qs ∧ bs = qs.flatMap encode) := by
  induction n generalizing participants with
  | zero =>
    refine (Exact.pure participants).congr (fun ps bs => ?_)
    constructor
    · rintro ⟨rfl, rfl⟩
      exact ⟨[], rfl, (List.append_nil _).symm, rfl⟩
    · rintro ⟨qs, hlen, rfl, rfl⟩
      obtain rfl := List.length_eq_zero_iff.mp hlen
      exact ⟨List.append_nil _, rfl⟩
  | succ n ih =>
    refine (exact_u.bind (fun pid => ih (participants ++ [pid]))).congr (fun ps bs => ?_)
    constructor
    · rintro ⟨pid, _, _, rfl, ⟨qs, hlen, rfl, rfl⟩, rfl⟩
      exact ⟨pid :: qs, by rw [List.length_cons, hlen], by simp, rfl⟩
    · rintro ⟨qs, hlen, rfl, rfl⟩
      cases qs with
      | nil => cases hlen
      | cons pid qs =>
        exact ⟨pid, _, _, rfl, ⟨qs, Nat.succ.inj hlen, by simp, rfl⟩, rfl⟩

theorem exact_request : Exact rest readRequest (Carries .request) := by
  refine (exact_u.bind (fun pid => exact_u.bind (fun ts => Exact.pure _))).congr (fun m bs => ?_)
  constructor
  · rintro ⟨pid, _, _, rfl, ⟨ts, _, _, rfl, ⟨rfl, rfl⟩, rfl⟩, rfl⟩
    exact ⟨rfl, trivial, by simp [payload]⟩
  · rintro ⟨ht, -, rfl⟩
    cases m with
    | reply | partyStart => cases ht
    | request x => exact ⟨x.requestTicket.pid, _, _, rfl, ⟨x.requestTicket.ts, _, _, rfl,
        ⟨rfl, rfl⟩, rfl⟩, by simp [payload]⟩

theorem exact_reply : Exact rest readReply (Carries .reply) := by
  refine (exact_u.bind (fun sp => exact_u.bind (fun sts => exact_u.bind (fun rp =>
    exact_u.bind (fun rts => Exact.pure _))))).congr (fun m bs => ?_)
  constructor
  · rintro ⟨sp, _, _, rfl, ⟨sts, _, _, rfl, ⟨rp, _, _, rfl, ⟨rts, _, _, rfl, ⟨rfl, rfl⟩, rfl⟩,
      rfl⟩, rfl⟩, rfl⟩
    exact ⟨rfl, trivial, by simp [payload]⟩
  · rintro ⟨ht, -, rfl⟩
    cases m with
    | request | partyStart => cases ht
    | reply x => exact ⟨x.senderTicket.pid, _, _, rfl, ⟨x.senderTicket.ts, _, _, rfl,
        ⟨x.requestTicket.pid, _, _, rfl, ⟨x.requestTicket.ts, _, _, rfl, ⟨rfl, rfl⟩, rfl⟩, rfl⟩,
        rfl⟩, by simp [payload]⟩

theorem exact_counted (count : UInt32) : Exact rest (readCounted count) (fun ps bs =>
    ps.length ≤ 1000000 ∧ count = UInt32.ofNat ps.length ∧ bs = ps.flatMap encode) := by
  refine (Exact.ite (count > 1000000) Exact.reject
    (exact_participants [] count.toNat)).congr (fun ps bs => ?_)
  have hgt : count > 1000000 ↔ 1000000 < count.toNat := UInt32.lt_iff_toNat_lt
  split_ifs with hlimit <;> rw [hgt] at hlimit
  · rw [false_iff]
    rintro ⟨hlen, rfl, -⟩
    have hle := Nat.mod_le ps.length (2 ^ 32)
    rw [UInt32.toNat_ofNat'] at hlimit
    omega
  · constructor
    · rintro ⟨qs, hlen, rfl, rfl⟩
      rw [hlen]
      exact ⟨Nat.le_of_not_lt hlimit, UInt32.ofNat_toNat.symm, rfl⟩
    · rintro ⟨hlen, rfl, rfl⟩
      have hlt : ps.length < 2 ^ 32 := by omega
      exact ⟨ps, (UInt32.toNat_ofNat_of_lt' hlt).symm, (List.nil_append ps).symm, rfl⟩

theorem exact_partyStart : Exact rest readPartyStart (Carries .partyStart) := by
  refine (exact_u.bind (fun sp => exact_u.bind (fun sts => exact_u.bind (fun partyId =>
    exact_u.bind (fun count => (exact_counted count).bind
      (fun ps => Exact.pure _)))))).congr (fun m bs => ?_)
  constructor
  · rintro ⟨sp, _, _, rfl, ⟨sts, _, _, rfl, ⟨partyId, _, _, rfl, ⟨count, _, _, rfl,
      ⟨ps, _, _, ⟨hlen, rfl, rfl⟩, ⟨rfl, rfl⟩, rfl⟩, rfl⟩, rfl⟩, rfl⟩, rfl⟩
    refine ⟨rfl, ⟨?_, hlen⟩, by simp [payload]⟩
    rw [UInt32.toNat_toUInt64]
    exact partyId.toNat_lt
  · rintro ⟨ht, hrep, rfl⟩
    cases m with
    | request | reply => cases ht
    | partyStart x =>
      obtain ⟨hid, hlen⟩ := hrep
      have hpid : x.partyId.toUInt32.toUInt64 = x.partyId := by
        apply UInt64.toNat_inj.mp
        rw [UInt32.toNat_toUInt64, UInt64.toNat_toUInt32, Nat.mod_eq_of_lt hid]
      refine ⟨x.senderTicket.pid, _, _, rfl, ⟨x.senderTicket.ts, _, _, rfl,
        ⟨x.partyId.toUInt32, _, _, rfl, ⟨UInt32.ofNat x.participants.length, _, _, rfl,
          ⟨x.participants, _, _, ⟨hlen, rfl, rfl⟩, ⟨?_, rfl⟩, rfl⟩, rfl⟩, rfl⟩, rfl⟩,
        by simp [payload]⟩
      rw [hpid]

theorem exact_message :
    Exact rest readMessage (fun m bs => m.Representable ∧ bs = serialize m) := by
  have hbody : ∀ b, Exact rest (match WireType.ofCode b with
      | some .request => readRequest
      | some .reply => readReply
      | some .partyStart => readPartyStart
      | none => reject) (fun m bs => WireType.ofCode b = some m.wireType ∧ m.Representable ∧
        bs = payload m) := by
    intro b
    cases WireType.ofCode b with
    | none => exact Exact.reject.congr (fun m bs => by simp)
    | some t =>
      cases t with
      | request => exact exact_request.congr (fun m bs => by simp [Carries, eq_comm])
      | reply => exact exact_reply.congr (fun m bs => by simp [Carries, eq_comm])
      | partyStart => exact exact_partyStart.congr (fun m bs => by simp [Carries, eq_comm])
  refine (exact_byte.bind hbody).congr (fun m bs => ?_)
  rw [serialize_eq]
  constructor
  · rintro ⟨b, _, _, rfl, ⟨hcode, hrep, rfl⟩, rfl⟩
    rw [WireType.ofCode_eq_some.mp hcode]
    exact ⟨hrep, rfl⟩
  · rintro ⟨hrep, rfl⟩
    exact ⟨m.wireType.code, _, _, rfl, ⟨WireType.ofCode_eq_some.mpr rfl, hrep, rfl⟩, rfl⟩

theorem deserialize_eq {data : List UInt8} {o : Option Message} : deserialize data = .ok o ↔
    ∃ x, result readMessage (ofData data) = .ok x ∧ x.map Prod.fst = o := by
  unfold deserialize
  cases result readMessage (ofData data) with
  | error e => simp [Except.map]
  | ok x => simp [Except.map]

theorem rest_ofData (data : List UInt8) : rest (ofData data) = data := List.drop_zero

theorem deserialize_eq_some {data : List UInt8} {m : Message} :
    deserialize data = .ok (some m) ↔ m.Representable ∧ serialize m <+: data := by
  have haccepts := exact_message.accepts_iff (ofData data) m
  rw [rest_ofData] at haccepts
  constructor
  · intro h
    obtain ⟨x, hx, hm⟩ := deserialize_eq.mp h
    obtain ⟨⟨m', r'⟩, rfl, rfl⟩ := Option.map_eq_some_iff.mp hm
    obtain ⟨bs, ⟨hrep, rfl⟩, hpre⟩ := haccepts.mp ⟨r', hx⟩
    exact ⟨hrep, hpre⟩
  · rintro ⟨hrep, hpre⟩
    obtain ⟨r', hr'⟩ := haccepts.mpr ⟨_, ⟨hrep, rfl⟩, hpre⟩
    exact deserialize_eq.mpr ⟨_, hr', rfl⟩

theorem deserialize_eq_none {data : List UInt8} : deserialize data = .ok none ↔
    ∀ m : Message, m.Representable → ¬ serialize m <+: data := by
  have hrejects := exact_message.rejects_iff (ofData data)
  rw [rest_ofData] at hrejects
  constructor
  · intro h m hrep
    obtain ⟨x, hx, hm⟩ := deserialize_eq.mp h
    rw [Option.map_eq_none_iff.mp hm] at hx
    exact hrejects.mp hx m _ ⟨hrep, rfl⟩
  · intro hno
    refine deserialize_eq.mpr ⟨none, hrejects.mpr ?_, rfl⟩
    rintro m bs ⟨hrep, rfl⟩
    exact hno m hrep

theorem deserialize_serialize {m : Message} :
    deserialize (serialize m) = .ok (some m) ↔ m.Representable := by
  rw [deserialize_eq_some]
  exact and_iff_left (List.prefix_refl _)

/-- The decoder is exact. It accepts a message exactly if the message is representable
and its encoding begins the data, rejects all other data, inverts the encoder exactly
on the representable messages, whose encodings are free of prefixes, and reads no
byte outside the buffer. -/
theorem deserialize_exact :
    (∀ data m, deserialize data = .ok (some m) ↔ m.Representable ∧ serialize m <+: data) ∧
    (∀ data, deserialize data = .ok none ↔
      ∀ m : Message, m.Representable → ¬ serialize m <+: data) ∧
    (∀ m, deserialize (serialize m) = .ok (some m) ↔ m.Representable) ∧
    (∀ m m' : Message, m.Representable → m'.Representable →
      serialize m <+: serialize m' → m = m') ∧
    ∀ data fault, deserialize data ≠ .error fault := by
  refine ⟨fun _ _ => deserialize_eq_some, fun _ => deserialize_eq_none,
    fun _ => deserialize_serialize, ?_, ?_⟩
  · intro m m' hrep hrep' hpre
    refine exact_message.prefix_free (ofData (serialize m')) ⟨hrep, rfl⟩ ⟨hrep', rfl⟩ ?_ ?_
    · rwa [rest_ofData]
    · rw [rest_ofData]
  · intro data fault h
    obtain ⟨x, hx⟩ := exact_message.total (ofData data)
    rw [deserialize, hx] at h
    cases h

end Decoding

end HaresBears
