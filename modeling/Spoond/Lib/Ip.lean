import Mathlib.Data.BitVec
import Mathlib.Tactic.SplitIfs

namespace Spoond.Lib.Ip

abbrev Text := List Char

-- The sixteen bytes of an address. An IPv4 address is kept in its mapped form ::ffff:a.b.c.d, which is
-- the same address.
abbrev IP := BitVec 128

def is4 (ip : IP) : Bool :=
  ip >>> 32 == 0xffff#128

def ofV4 (a : Nat) : IP :=
  BitVec.ofNat 128 (0xffff * 2 ^ 32 + a % 2 ^ 32)

def mask (ip : IP) (host : Nat) : IP :=
  (ip >>> host) <<< host

section
variable (ip : IP)

theorem shiftRight_shiftRight (a b : Nat) : (ip >>> a) >>> b = ip >>> (a + b) := by
  rw [BitVec.shiftRight_add]

@[simp] theorem mask_shiftRight (host : Nat) : mask ip host >>> host = ip >>> host := by
  apply BitVec.eq_of_toNat_eq
  have hle : ip.toNat / 2 ^ host * 2 ^ host < 2 ^ 128 := Nat.lt_of_le_of_lt (Nat.div_mul_le_self _ _) ip.isLt
  simp only [mask, BitVec.toNat_ushiftRight, BitVec.toNat_shiftLeft, Nat.shiftRight_eq_div_pow, Nat.shiftLeft_eq]
  rw [Nat.mod_eq_of_lt hle, Nat.mul_div_cancel _ (Nat.two_pow_pos host)]

@[simp] theorem mask_mask (host : Nat) : mask (mask ip host) host = mask ip host := by
  rw [mask, mask_shiftRight, mask]

theorem shiftRight_congr {a b : IP} {wider : Nat} (hle : host ≤ wider) (h : a >>> host = b >>> host) :
    a >>> wider = b >>> wider := by
  obtain ⟨more, rfl⟩ := Nat.exists_eq_add_of_le hle
  rw [← shiftRight_shiftRight, ← shiftRight_shiftRight, h]

theorem is4_mask (hhost : host ≤ 32) : is4 (mask ip host) = is4 ip := by
  rw [is4, is4, shiftRight_congr hhost (mask_shiftRight ip host)]

theorem is4_ofV4 (a : Nat) : is4 (ofV4 a) = true := by
  have hlt : a % 2 ^ 32 < 2 ^ 32 := Nat.mod_lt _ (Nat.two_pow_pos 32)
  rw [is4, beq_iff_eq]
  apply BitVec.eq_of_toNat_eq
  simp only [ofV4, BitVec.toNat_ushiftRight, BitVec.toNat_ofNat, Nat.shiftRight_eq_div_pow]
  omega

theorem ofV4_low (h : is4 ip = true) : ofV4 ip.toNat = ip := by
  have htop : ip.toNat / 2 ^ 32 = 0xffff := by
    have := congrArg BitVec.toNat (beq_iff_eq.1 h)
    simpa [Nat.shiftRight_eq_div_pow] using this
  apply BitVec.eq_of_toNat_eq
  simp only [ofV4, BitVec.toNat_ofNat]
  have := ip.isLt
  omega

end

-- A network: the masked address, the length of its mask and of the addresses it was written for. The
-- mapped IPv4 networks have both spellings.
structure IPNet where
  ip : IP
  ones : Nat
  bits : Nat
  ones_le : ones ≤ bits
  family : bits = 32 ∧ is4 ip = true ∨ bits = 128
  masked : mask ip (bits - ones) = ip

namespace IPNet

def host (n : IPNet) : Nat :=
  n.bits - n.ones

-- An address and a network match only in the same form, four bytes or sixteen.
def contains (n : IPNet) (ip : IP) : Bool :=
  is4 n.ip == is4 ip && ip >>> n.host == n.ip >>> n.host

theorem contains_iff (n : IPNet) (ip : IP) :
    n.contains ip = true ↔ is4 n.ip = is4 ip ∧ ip >>> n.host = n.ip >>> n.host := by
  simp [contains]

theorem contains_trans {outer inner : IPNet} (hbits : outer.bits = inner.bits) (hones : outer.ones ≤ inner.ones)
    (houter : outer.contains inner.ip = true) (hinner : inner.contains a = true) : outer.contains a = true := by
  obtain ⟨hform, hnet⟩ := (contains_iff _ _).1 houter
  obtain ⟨hform', ha⟩ := (contains_iff _ _).1 hinner
  have hhost : inner.host ≤ outer.host := by
    simp only [host, hbits]
    omega
  exact (contains_iff _ _).2 ⟨hform.trans hform', (shiftRight_congr hhost ha).trans hnet⟩

theorem eq_of_contains {n : IPNet} (hfull : n.ones = n.bits) (h : n.contains a = true) : a = n.ip := by
  have ha := ((contains_iff _ _).1 h).2
  simpa [host, hfull] using ha

theorem host_le_of_is4 (n : IPNet) (h : is4 n.ip = true) : n.host ≤ 32 := by
  by_contra hlt
  have hset : n.ip.getLsbD 32 = true := by
    have := congrArg (fun x : IP => x.getLsbD 0) (beq_iff_eq.1 h)
    simpa using this
  have hclear : n.ip.getLsbD 32 = false := by
    have hlt' : 32 < n.bits - n.ones := by
      simp only [host] at hlt
      omega
    rw [← n.masked, mask, BitVec.getLsbD_shiftLeft]
    simp [hlt']
  rw [hset] at hclear
  cases hclear

end IPNet

end Spoond.Lib.Ip
