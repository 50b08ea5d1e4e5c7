import HenPlugins.Library.CString

open List

namespace LittleEndian

variable {n v : Nat} {bs : Bytes}

-- The `n` low bytes of a number, the lowest first.
def encode (n v : Nat) : Bytes :=
  (List.range n).map fun i => (v / 256 ^ i).toUInt8

def decode (bs : Bytes) : Nat :=
  bs.foldr (fun b v => b.toNat + 256 * v) 0

@[simp]
theorem length_encode : (encode n v).length = n := by
  simp [encode]

theorem encode_succ : encode (n + 1) v = v.toUInt8 :: encode n (v / 256) := by
  simp [encode, range_succ_eq_map, Function.comp_def, Nat.div_div_eq_div_mul, Nat.pow_succ, Nat.mul_comm]

theorem getElem_encode {i : Nat} (h : i < (encode n v).length) :
    (encode n v)[i] = (v / 256 ^ i).toUInt8 := by
  simp [encode]

@[simp]
theorem decode_encode : decode (encode n v) = v % 256 ^ n := by
  induction n generalizing v
  case zero      => simp [encode, decode, Nat.mod_one]
  case succ n hi =>
    have hd : decode (encode (n + 1) v) = v % 256 + 256 * decode (encode n (v / 256)) := by
      rw [encode_succ]
      rfl
    rw [hd, hi, Nat.pow_succ', Nat.mod_mul]

theorem encode_decode : encode bs.length (decode bs) = bs := by
  induction bs
  case nil => rfl
  case cons b bs hi =>
    have hd : decode (b :: bs) = b.toNat + 256 * decode bs := rfl
    have hb := b.toNat_lt
    have hv : (b.toNat + 256 * decode bs) / 256 = decode bs := by omega
    have hc : (b.toNat + 256 * decode bs).toUInt8 = b := by
      apply UInt8.toNat_inj.mp
      rw [Nat.toUInt8, UInt8.toNat_ofNat']
      omega
    rw [length_cons, encode_succ, hd, hv, hi, hc]

theorem decode_lt : decode bs < 256 ^ bs.length := by
  rw [← @encode_decode bs, decode_encode, length_encode]
  exact Nat.mod_lt _ (Nat.pos_of_neZero _)

end LittleEndian
