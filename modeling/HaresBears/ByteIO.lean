import HaresBears.ExactParser
import HaresBears.LittleEndian
import Mathlib.Logic.Equiv.Defs

/-!
Byte buffers. The writer appends the bytes of unsigned integers in little-endian
order; the reader takes them back, tests the remaining size before each integer and
touches no byte outside the buffer.
-/
namespace HaresBears

open ExactParser LittleEndian

/-- The types `T` of `ByteWriter::u` and `ByteReader::u`: `sizeof(T)` and the bits. -/
class UnsignedInt (T : Type) where
  size : ℕ
  bits : T ≃ BitVec (8 * size)

instance : UnsignedInt UInt32 :=
  ⟨4, ⟨UInt32.toBitVec, UInt32.ofBitVec, fun _ => rfl, fun _ => rfl⟩⟩

instance : UnsignedInt UInt64 :=
  ⟨8, ⟨UInt64.toBitVec, UInt64.ofBitVec, fun _ => rfl, fun _ => rfl⟩⟩

structure ByteWriter where
  out : List UInt8 := []

namespace ByteWriter

def byte (w : ByteWriter) (b : UInt8) : ByteWriter := ⟨w.out ++ [b]⟩

def u {T : Type} [UnsignedInt T] (w : ByteWriter) (value : T) : ByteWriter :=
  (List.range (UnsignedInt.size T)).foldl
    (fun w i => w.byte (byteAt (UnsignedInt.bits value) i)) w

def take (w : ByteWriter) : List UInt8 := w.out

end ByteWriter

/-- A read outside the buffer, which the language leaves undefined. -/
inductive Fault where
  | outOfBounds
  deriving DecidableEq, Repr

structure ByteReader where
  data : List UInt8
  off : ℕ
  inside : off ≤ data.length

namespace ByteReader

def ofData (data : List UInt8) : ByteReader := ⟨data, 0, Nat.zero_le _⟩

def remaining (r : ByteReader) : ℕ := r.data.length - r.off

def next : Parser ByteReader Fault UInt8 := fun r =>
  (if h : r.off < r.data.length then .ok (some (r.data[r.off], ⟨r.data, r.off + 1, h⟩))
  else .error .outOfBounds : Except Fault (Option (UInt8 × ByteReader)))

def byte : Parser ByteReader Fault UInt8 := do
  let r ← get
  if r.remaining < 1 then reject else next

/-- The loop of `u`, from byte `i` on. -/
def uLoop {w : ℕ} (value : BitVec w) (i : ℕ) : ℕ → Parser ByteReader Fault (BitVec w)
  | 0 => pure value
  | n + 1 => do
    let b ← next
    uLoop (value ||| placed b i) (i + 1) n

def u (T : Type) [UnsignedInt T] : Parser ByteReader Fault T := do
  let r ← get
  if r.remaining < UnsignedInt.size T then reject
  else do
    let value ← uLoop 0#(8 * UnsignedInt.size T) 0 (UnsignedInt.size T)
    return UnsignedInt.bits.symm value

def rest (r : ByteReader) : List UInt8 := r.data.drop r.off

end ByteReader

def encode {T : Type} [UnsignedInt T] (value : T) : List UInt8 :=
  bytes (UnsignedInt.size T) (UnsignedInt.bits value)

section Exactness

variable {T : Type} [UnsignedInt T]

theorem ByteWriter.out_u (w : ByteWriter) (value : T) :
    (w.u value).out = w.out ++ encode value := by
  have hloop : ∀ (is : List ℕ) (w : ByteWriter),
      (is.foldl (fun w i => w.byte (byteAt (UnsignedInt.bits value) i)) w).out =
        w.out ++ is.map (byteAt (UnsignedInt.bits value)) := by
    intro is
    induction is with
    | nil => simp
    | cons i is ih =>
      intro w
      rw [List.foldl_cons, ih]
      simp [ByteWriter.byte]
  exact hloop _ w

theorem length_encode (value : T) : (encode value).length = UnsignedInt.size T :=
  length_bytes ..

theorem ByteReader.length_rest (r : ByteReader) : r.rest.length = r.remaining :=
  List.length_drop ..

theorem ByteReader.next_cons {r : ByteReader} {b : UInt8} {tail : List UInt8}
    (h : r.rest = b :: tail) : ∃ r', result next r = .ok (some (b, r')) ∧ r'.rest = tail := by
  have hlt : r.off < r.data.length := by
    by_contra hge
    rw [rest, List.drop_eq_nil_of_le (Nat.le_of_not_lt hge)] at h
    cases h
  rw [rest, List.drop_eq_getElem_cons hlt] at h
  obtain ⟨hb, htail⟩ := List.cons.inj h
  refine ⟨⟨r.data, r.off + 1, hlt⟩, ?_, htail⟩
  rw [← hb]
  exact dif_pos hlt

/-- The loop puts the next bytes in their places. -/
theorem ByteReader.uLoop_eq {w : ℕ} (bs : List UInt8) {r : ByteReader} {tail : List UInt8}
    (value : BitVec w) (i : ℕ) (h : r.rest = bs ++ tail) :
    ∃ r', result (uLoop value i bs.length) r = .ok (some (value ||| assemble i bs, r')) ∧
      r'.rest = tail := by
  induction bs generalizing r value i with
  | nil =>
    refine ⟨r, ?_, h⟩
    simp [uLoop, assemble, result_pure]
  | cons b bs ih =>
    obtain ⟨r₁, hr₁, hrest₁⟩ := next_cons h
    obtain ⟨r₂, hr₂, hrest₂⟩ := ih (value ||| placed b i) (i + 1) hrest₁
    refine ⟨r₂, ?_, hrest₂⟩
    rw [List.length_cons, uLoop, result_bind, hr₁]
    simp only [Except.bind, Option.elim_some]
    rw [hr₂, assemble, BitVec.or_assoc]

theorem ByteReader.exact_byte : Exact rest byte (fun b bs => bs = [b]) := by
  have hbyte : ∀ r, result byte r = if r.remaining < 1 then .ok none else result next r := by
    intro r
    change result (if r.remaining < 1 then reject else next) r = _
    split <;> rfl
  refine Exact.of_fixed 1 (fun bs => bs.headD 0) (fun b => [b]) (fun _ => rfl) (fun _ => rfl)
    ?_ ?_ ?_
  · intro bs h
    obtain ⟨b, rfl⟩ := List.length_eq_one_iff.mp h
    rfl
  · intro r h
    rw [length_rest] at h
    rw [hbyte, if_pos h]
  · intro r bs tail h hrest
    obtain ⟨b, rfl⟩ := List.length_eq_one_iff.mp h
    have hlong : ¬ r.remaining < 1 := by
      rw [← length_rest, hrest]
      simp
    rw [hbyte, if_neg hlong]
    exact next_cons hrest

theorem ByteReader.exact_u : Exact rest (u T) (fun value bs => bs = encode value) := by
  have hu : ∀ r, result (u T) r = if r.remaining < UnsignedInt.size T then .ok none else
      (result (uLoop 0#(8 * UnsignedInt.size T) 0 (UnsignedInt.size T)) r).bind
        (fun o => o.elim (.ok none) (fun x => .ok (some (UnsignedInt.bits.symm x.1, x.2)))) := by
    intro r
    change result (if r.remaining < UnsignedInt.size T then reject else _) r = _
    split
    · rfl
    · rw [result_bind]
      rfl
  refine Exact.of_fixed (UnsignedInt.size T)
    (fun bs => UnsignedInt.bits.symm (assemble 0 bs)) encode length_encode ?_ ?_ ?_ ?_
  · intro value
    rw [encode, assemble_bytes, Equiv.symm_apply_apply]
  · intro bs h
    rw [encode, Equiv.apply_symm_apply, bytes_assemble h]
  · intro r h
    rw [length_rest] at h
    rw [hu, if_pos h]
  · intro r bs tail h hrest
    have hlong : ¬ r.remaining < UnsignedInt.size T := by
      rw [← length_rest, hrest, List.length_append, h]
      omega
    obtain ⟨r', hr', hrest'⟩ := uLoop_eq bs 0#(8 * UnsignedInt.size T) 0 hrest
    refine ⟨r', ?_, hrest'⟩
    rw [h, BitVec.zero_or] at hr'
    rw [hu, if_neg hlong, hr']
    rfl

end Exactness

end HaresBears
