import Mathlib
import GameServer.Uuid

/-!
# The bit fields of an identifier

An identifier is 33 bits of seconds, 6 of harbor, 15 of service number and 10 of sequence. The
packing is a sum of shifted fields exactly when every field fits, and then `split` reads each
field back. The service number is masked with 16 bits but has only 15 of its own.
-/

namespace GameServer.Uuid

theorem toNat_shiftLeft_of_lt {x : LuaInt} {n k : ℕ} (hx : x.toNat = n) (h : n * 2 ^ k < 2 ^ 64) :
    (x <<< k).toNat = n * 2 ^ k := by
  rw [BitVec.toNat_shiftLeft, hx, Nat.shiftLeft_eq, Nat.mod_eq_of_lt h]

/-- Or-ing a field into the free low bits adds it. -/
theorem toNat_or_of_lt {x y : LuaInt} {n m k : ℕ} (hx : x.toNat = n * 2 ^ k) (hy : y.toNat = m)
    (h : m < 2 ^ k) : (x ||| y).toNat = n * 2 ^ k + m := by
  rw [BitVec.toNat_or, hx, hy, ← Nat.shiftLeft_eq, Nat.shiftLeft_add_eq_or_of_lt h]

theorem toNat_and_mask {x : LuaInt} (mask : LuaInt) (k : ℕ) (hm : mask.toNat = 2 ^ k - 1) :
    (x &&& mask).toNat = x.toNat % 2 ^ k := by
  rw [BitVec.toNat_and, hm, Nat.and_two_pow_sub_one_eq_mod]

theorem packService_toNat (harbor : LuaInt) {sid : ℕ} (hs : sid < 2 ^ 15) :
    (packService harbor sid).toNat = (harbor.toNat % 2 ^ 6) * 2 ^ 25 + sid * 2 ^ 10 := by
  have hh : harbor.toNat % 2 ^ 6 < 2 ^ 6 := Nat.mod_lt _ (by omega)
  have ha : (harbor &&& 0x3f#64).toNat = harbor.toNat % 2 ^ 6 := toNat_and_mask _ 6 rfl
  have hb : (BitVec.ofNat 64 sid &&& 0xffff#64).toNat = sid := by
    rw [toNat_and_mask _ 16 rfl, BitVec.toNat_ofNat]
    omega
  exact toNat_or_of_lt (toNat_shiftLeft_of_lt ha (by omega))
    (toNat_shiftLeft_of_lt hb (by omega)) (by omega)

def number (harbor : LuaInt) (stamp sid sequence : ℕ) : LuaInt :=
  ((BitVec.ofNat 64 stamp <<< 31) ||| packService harbor sid) ||| BitVec.ofNat 64 sequence

theorem number_toNat (harbor : LuaInt) {stamp sid sequence : ℕ} (ht : stamp < 2 ^ 33)
    (hs : sid < 2 ^ 15) (hq : sequence < 2 ^ 10) :
    (number harbor stamp sid sequence).toNat =
      stamp * 2 ^ 31 + (harbor.toNat % 2 ^ 6) * 2 ^ 25 + sid * 2 ^ 10 + sequence := by
  have hh : harbor.toNat % 2 ^ 6 < 2 ^ 6 := Nat.mod_lt _ (by omega)
  have ht' : (BitVec.ofNat 64 stamp).toNat = stamp := by rw [BitVec.toNat_ofNat]; omega
  have hq' : (BitVec.ofNat 64 sequence).toNat = sequence := by rw [BitVec.toNat_ofNat]; omega
  have hshift : (BitVec.ofNat 64 stamp <<< 31).toNat = stamp * 2 ^ 31 :=
    toNat_shiftLeft_of_lt ht' (by omega)
  have hservice := toNat_or_of_lt hshift (packService_toNat harbor hs) (by omega)
  have hfields : ((BitVec.ofNat 64 stamp <<< 31) ||| packService harbor sid).toNat =
      (stamp * 2 ^ 21 + (harbor.toNat % 2 ^ 6) * 2 ^ 15 + sid) * 2 ^ 10 := by
    rw [hservice]
    ring
  rw [number, toNat_or_of_lt hfields hq' hq]
  ring

/-- `split` undoes the packing whenever every field fits the bits set aside for it. -/
theorem split_number (harbor : LuaInt) {stamp sid sequence : ℕ} (ht : stamp < 2 ^ 33)
    (hs : sid < 2 ^ 15) (hq : sequence < 2 ^ 10) :
    split (number harbor stamp sid sequence) =
      (BitVec.ofNat 64 stamp, harbor &&& 0x3f#64, BitVec.ofNat 64 sid,
        BitVec.ofNat 64 sequence) := by
  have hn := number_toNat harbor ht hs hq
  have hh : harbor.toNat % 2 ^ 6 < 2 ^ 6 := Nat.mod_lt _ (by omega)
  simp only [split, Prod.mk.injEq]
  refine ⟨?_, ?_, ?_, ?_⟩ <;> apply BitVec.eq_of_toNat_eq
  · rw [BitVec.toNat_ushiftRight, hn, BitVec.toNat_ofNat, Nat.shiftRight_eq_div_pow]
    omega
  · rw [BitVec.toNat_ushiftRight, toNat_and_mask _ 31 rfl, toNat_and_mask _ 6 rfl, hn,
      Nat.shiftRight_eq_div_pow]
    omega
  · rw [BitVec.toNat_ushiftRight, toNat_and_mask _ 25 rfl, hn, BitVec.toNat_ofNat,
      Nat.shiftRight_eq_div_pow]
    omega
  · rw [toNat_and_mask _ 10 rfl, hn, BitVec.toNat_ofNat]
    omega

theorem idString_injective : Function.Injective idString := by
  intro a b h
  have hs : a.toInt.repr = b.toInt.repr := by simpa [idString] using h
  exact BitVec.eq_of_toInt_eq (Int.repr_injective hs)

end GameServer.Uuid
