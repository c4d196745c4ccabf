/-
# Waf.Address — IP addresses as byte strings and as numbers.

`net.IP` is a string of 4 or 16 bytes; an IPv4 address may be given in either form. `minifyIP` takes the short
form where there is one, so that the length tells the family. An `Addr` is what such a string stands for: a
family and a number. A network is the interval from its address with the host bits cleared to the one with them
set (`between_network_iff`).
-/
import TorrServer.Lib.Endian

namespace TorrServer.Waf

open Lib List

/-! ## The model -/

/-- The first twelve bytes of an IPv4 address in 16 bytes. -/
def v4InV6Prefix : Bytes := [0, 0, 0, 0, 0, 0, 0, 0, 0, 0, 0xff, 0xff]

/-- `IP.To4`. -/
def to4 (ip : Bytes) : Option Bytes :=
  if ip.length = 4 then some ip
  else if ip.length = 16 ∧ ip.take 12 = v4InV6Prefix then some (ip.drop 12)
  else none

/-- `minifyIP` of an address. -/
def minifyIP (ip : Bytes) : Bytes := (to4 ip).getD ip

/-- `net.CIDRMask` for a number of bytes. -/
def cidrMask : Nat → Nat → Bytes
  | 0, _ => []
  | length + 1, ones =>
    if 8 ≤ ones then 0xff :: cidrMask length (ones - 8)
    else (~~~ ((0xff : UInt8) >>> UInt8.ofNat ones)) :: cidrMask length 0

/-- `net.IPNet`. -/
structure IPNet where
  ip : Bytes
  mask : Bytes

/-- The network of an address and a prefix length, as `net.ParseCIDR` computes it. -/
def network (ip : Bytes) (ones : Nat) : IPNet :=
  let mask := cidrMask ip.length ones
  { ip := List.zipWith (· &&& ·) ip mask, mask := mask }

/-- The last address of a network. -/
def lastIP (net : IPNet) : Bytes := List.zipWith (fun b m => b ||| ~~~ m) net.ip net.mask

/-! ## Addresses -/

/-- The two kinds of address. -/
inductive Family
  | v4
  | v6
  deriving DecidableEq, Repr

/-- An address: its family, and the number that its bytes stand for. -/
structure Addr where
  family : Family
  value : Nat
  deriving DecidableEq, Repr

/-- The address of a byte string; an IPv4-mapped one is of the family IPv4. -/
def addrOf (ip : Bytes) : Addr :=
  match to4 ip with
  | some short => ⟨.v4, beVal short⟩
  | none => ⟨.v6, beVal ip⟩

/-- An address in its short form. -/
def Minified (ip : Bytes) : Prop := ip.length = 4 ∨ ip.length = 16 ∧ to4 ip = none

section

variable {ip : Bytes}

theorem to4_of_length (h : ip.length = 4) : to4 ip = some ip := if_pos h

/-- An address of 16 bytes has a short form exactly if it is mapped. -/
theorem to4_of_mapped (h : ip.length = 16) (hmapped : ip.take 12 = v4InV6Prefix) :
    to4 ip = some (ip.drop 12) := by
  rw [to4, if_neg (by omega), if_pos ⟨h, hmapped⟩]

theorem to4_eq_none (h : ip.length = 16) (hmapped : ip.take 12 ≠ v4InV6Prefix) : to4 ip = none := by
  rw [to4, if_neg (by omega), if_neg fun hip => hmapped hip.2]

theorem minifyIP_minified (h : ip.length = 4 ∨ ip.length = 16) : Minified (minifyIP ip) := by
  rcases h with hshort | hlong
  · rw [minifyIP, to4_of_length hshort]
    exact .inl hshort
  · by_cases hmapped : ip.take 12 = v4InV6Prefix
    · rw [minifyIP, to4_of_mapped hlong hmapped]
      refine .inl ?_
      show (ip.drop 12).length = 4
      rw [length_drop, hlong]
    · rw [minifyIP, to4_eq_none hlong hmapped]
      exact .inr ⟨hlong, to4_eq_none hlong hmapped⟩

theorem addrOf_minifyIP (h : ip.length = 4 ∨ ip.length = 16) : addrOf (minifyIP ip) = addrOf ip := by
  rcases h with hshort | hlong
  · rw [minifyIP, to4_of_length hshort]
    rfl
  · by_cases hmapped : ip.take 12 = v4InV6Prefix
    · have hdrop : (ip.drop 12).length = 4 := by rw [length_drop, hlong]
      rw [minifyIP, to4_of_mapped hlong hmapped, addrOf, addrOf, to4_of_mapped hlong hmapped]
      show (match to4 (ip.drop 12) with | some short => _ | none => _) = _
      rw [to4_of_length hdrop]
    · rw [minifyIP, to4_eq_none hlong hmapped]
      rfl

/-- The short form shows the address. -/
theorem addrOf_of_minified (h : Minified ip) : addrOf ip = ⟨if ip.length = 4 then .v4 else .v6, beVal ip⟩ := by
  rcases h with hshort | ⟨hlong, hnone⟩
  · rw [addrOf, to4_of_length hshort, if_pos hshort]
  · rw [addrOf, hnone, if_neg (by omega)]

theorem Minified.length (h : Minified ip) : ip.length = 4 ∨ ip.length = 16 :=
  h.elim .inl fun h => .inr h.1

/-- Addresses in short form have one length exactly if they are of one family. -/
theorem length_eq_iff {ip' : Bytes} (h : Minified ip) (h' : Minified ip') :
    ip.length = ip'.length ↔ (addrOf ip).family = (addrOf ip').family := by
  rw [addrOf_of_minified h, addrOf_of_minified h']
  rcases h.length with hlength | hlength <;> rcases h'.length with hlength' | hlength' <;>
    simp [hlength, hlength']

end

/-- The number is that of an IPv4 address in 16 bytes. -/
def IsMapped (v : Nat) : Prop := v / 2 ^ 32 = 0xffff

instance (v : Nat) : Decidable (IsMapped v) := inferInstanceAs (Decidable (_ = _))

/-- The first twelve bytes, and the last four, of an address of 16 bytes. -/
theorem beVal_split {ip : Bytes} (h : ip.length = 16) :
    beVal ip / 2 ^ 32 = beVal (ip.take 12) ∧ beVal ip % 2 ^ 32 = beVal (ip.drop 12) := by
  have hdrop : (ip.drop 12).length = 4 := by rw [length_drop, h]
  have hlt := beVal_lt (ip.drop 12)
  have hsum := beVal_append (ip.take 12) (ip.drop 12)
  rw [take_append_drop, hdrop] at hsum
  rw [hdrop] at hlt
  omega

theorem mapped_iff {ip : Bytes} (h : ip.length = 16) : ip.take 12 = v4InV6Prefix ↔ IsMapped (beVal ip) := by
  rw [IsMapped, (beVal_split h).1]
  constructor
  · intro heq
    rw [heq]
    decide
  · intro hvalue
    apply beVal_inj
    · rw [length_take, h]
      rfl
    · rw [hvalue]
      decide

theorem minifyIP_of_mapped {ip : Bytes} (h : ip.length = 16) (hmapped : IsMapped (beVal ip)) :
    (minifyIP ip).length = 4 ∧ beVal (minifyIP ip) = beVal ip % 2 ^ 32 := by
  have hto4 := to4_of_mapped h ((mapped_iff h).2 hmapped)
  rw [minifyIP, hto4]
  exact ⟨by rw [Option.getD_some, length_drop, h], (beVal_split h).2.symm⟩

theorem minifyIP_of_not_mapped {ip : Bytes} (h : ip.length = 16) (hmapped : ¬ IsMapped (beVal ip)) :
    minifyIP ip = ip := by
  rw [minifyIP, to4_eq_none h (mt (mapped_iff h).1 hmapped)]
  rfl

/-! ## Networks -/

section

variable {ip : Bytes} {ones : Nat}

theorem cidrMask_length (length ones : Nat) : (cidrMask length ones).length = length := by
  induction length generalizing ones with
  | zero => rfl
  | succ length ih =>
    rw [cidrMask]
    split
    · rw [length_cons, ih]
    · rw [length_cons, ih]

theorem network_ip_length (ip : Bytes) (ones : Nat) : (network ip ones).ip.length = ip.length := by
  rw [network, length_zipWith, cidrMask_length, Nat.min_self]

theorem lastIP_network_length (ip : Bytes) (ones : Nat) : (lastIP (network ip ones)).length = ip.length := by
  rw [lastIP, length_zipWith, network_ip_length]
  show min ip.length (cidrMask ip.length ones).length = ip.length
  rw [cidrMask_length, Nat.min_self]

/-- One byte of a mask: the low bits are cleared, or set. -/
theorem byte_mask (b : UInt8) {ones : Nat} (h : ones < 8) :
    (b &&& ~~~ ((0xff : UInt8) >>> UInt8.ofNat ones)).toNat = b.toNat / 2 ^ (8 - ones) * 2 ^ (8 - ones) ∧
      ((b &&& ~~~ ((0xff : UInt8) >>> UInt8.ofNat ones)) |||
        ~~~ ~~~ ((0xff : UInt8) >>> UInt8.ofNat ones)).toNat
        = b.toNat / 2 ^ (8 - ones) * 2 ^ (8 - ones) + (2 ^ (8 - ones) - 1) := by
  have hall : ∀ (ones : Fin 8) (n : Fin 256),
      (UInt8.ofNat n.1 &&& ~~~ ((0xff : UInt8) >>> UInt8.ofNat ones.1)).toNat
          = n.1 / 2 ^ (8 - ones.1) * 2 ^ (8 - ones.1) ∧
        ((UInt8.ofNat n.1 &&& ~~~ ((0xff : UInt8) >>> UInt8.ofNat ones.1)) |||
          ~~~ ~~~ ((0xff : UInt8) >>> UInt8.ofNat ones.1)).toNat
          = n.1 / 2 ^ (8 - ones.1) * 2 ^ (8 - ones.1) + (2 ^ (8 - ones.1) - 1) := by
    decide +kernel
  have hb := hall ⟨ones, h⟩ ⟨b.toNat, b.toNat_lt⟩
  simpa only [UInt8.ofNat_toNat] using hb

theorem byte_ff (b : UInt8) : b &&& 0xff = b ∧ (b &&& 0xff) ||| ~~~ 0xff = b := by
  have hall : ∀ n : Fin 256, UInt8.ofNat n.1 &&& 0xff = UInt8.ofNat n.1 ∧
      (UInt8.ofNat n.1 &&& 0xff) ||| ~~~ 0xff = UInt8.ofNat n.1 := by
    decide +kernel
  have hb := hall ⟨b.toNat, b.toNat_lt⟩
  simpa only [UInt8.ofNat_toNat] using hb

/-- Below a multiple of `2 ^ k`, only the rest is rounded. -/
theorem round_add {m v k : Nat} (h : 2 ^ k ∣ m) : (m + v) / 2 ^ k * 2 ^ k = m + v / 2 ^ k * 2 ^ k := by
  obtain ⟨q, rfl⟩ := h
  rw [Nat.mul_add_div (Nat.two_pow_pos k), Nat.add_mul, Nat.mul_comm q]

theorem pow_256 (n : Nat) : 256 ^ n = 2 ^ (8 * n) := by rw [Nat.pow_mul]

/-- The two ends of a network: the host bits cleared, and set. -/
theorem network_ends (ip : Bytes) (ones : Nat) (h : ones ≤ 8 * ip.length) :
    beVal (network ip ones).ip
        = beVal ip / 2 ^ (8 * ip.length - ones) * 2 ^ (8 * ip.length - ones) ∧
      beVal (lastIP (network ip ones))
        = beVal ip / 2 ^ (8 * ip.length - ones) * 2 ^ (8 * ip.length - ones)
          + (2 ^ (8 * ip.length - ones) - 1) := by
  induction ip generalizing ones with
  | nil =>
    have hzero : ones = 0 := by simpa using h
    subst hzero
    decide
  | cons b bs ih =>
    have hlength : (b :: bs).length = bs.length + 1 := length_cons
    have hlow : (network (b :: bs) ones).ip
        = List.zipWith (· &&& ·) (b :: bs) (cidrMask (bs.length + 1) ones) := rfl
    have hhigh : lastIP (network (b :: bs) ones)
        = List.zipWith (fun b m => b ||| ~~~ m) (network (b :: bs) ones).ip (cidrMask (bs.length + 1) ones) :=
          rfl
    have hv := beVal_lt bs
    rw [hlength] at h ⊢
    by_cases hfull : 8 ≤ ones
    · -- the first byte belongs to the prefix
      obtain ⟨ihlow, ihhigh⟩ := ih (ones - 8) (by omega)
      have hk : 8 * (bs.length + 1) - ones = 8 * bs.length - (ones - 8) := by omega
      have hdvd : 2 ^ (8 * bs.length - (ones - 8)) ∣ b.toNat * 256 ^ bs.length := by
        rw [pow_256]
        exact Dvd.dvd.mul_left (Nat.pow_dvd_pow 2 (by omega)) _
      have hip : (network (b :: bs) ones).ip = b :: (network bs (ones - 8)).ip := by
        rw [hlow, cidrMask, if_pos hfull, zipWith_cons_cons, (byte_ff b).1]
        rfl
      have hlast : lastIP (network (b :: bs) ones) = b :: lastIP (network bs (ones - 8)) := by
        have hb : b ||| ~~~ 0xff = b := by
          have := (byte_ff b).2
          rwa [(byte_ff b).1] at this
        rw [hhigh, hip, cidrMask, if_pos hfull, zipWith_cons_cons, hb]
        rfl
      rw [hip, hlast, beVal_cons, beVal_cons, beVal_cons, network_ip_length, lastIP_network_length, hk,
        round_add hdvd, ihlow, ihhigh, Nat.add_assoc]
      exact ⟨rfl, rfl⟩
    · -- the prefix ends in the first byte; all others are host bits
      obtain ⟨ihlow, ihhigh⟩ := ih 0 (Nat.zero_le _)
      obtain ⟨hbyte, hbyte'⟩ := byte_mask b (show ones < 8 by omega)
      have hk : 8 * (bs.length + 1) - ones = 8 * bs.length + (8 - ones) := by omega
      have hrest : beVal bs / 2 ^ (8 * bs.length) = 0 := by
        rw [pow_256] at hv
        exact Nat.div_eq_of_lt hv
      rw [Nat.sub_zero, hrest, Nat.zero_mul] at ihlow ihhigh
      rw [Nat.zero_add] at ihhigh
      have hdiv : (b.toNat * 256 ^ bs.length + beVal bs) / 2 ^ (8 * bs.length + (8 - ones))
          = b.toNat / 2 ^ (8 - ones) := by
        rw [Nat.pow_add, ← Nat.div_div_eq_div_mul, pow_256, Nat.mul_comm, Nat.mul_add_div (Nat.two_pow_pos _),
          hrest, Nat.add_zero]
      have hip : (network (b :: bs) ones).ip
          = (b &&& ~~~ ((0xff : UInt8) >>> UInt8.ofNat ones)) :: (network bs 0).ip := by
        rw [hlow, cidrMask, if_neg hfull, zipWith_cons_cons]
        rfl
      have hlast : lastIP (network (b :: bs) ones)
          = ((b &&& ~~~ ((0xff : UInt8) >>> UInt8.ofNat ones)) |||
              ~~~ ~~~ ((0xff : UInt8) >>> UInt8.ofNat ones)) :: lastIP (network bs 0) := by
        rw [hhigh, hip, cidrMask, if_neg hfull, zipWith_cons_cons]
        rfl
      have hpos : 0 < 2 ^ (8 * bs.length) := Nat.two_pow_pos _
      have hpos' : 0 < 2 ^ (8 - ones) := Nat.two_pow_pos _
      rw [hip, hlast, beVal_cons, beVal_cons, beVal_cons, network_ip_length, lastIP_network_length, hk, hdiv,
        hbyte, hbyte', ihlow, ihhigh, pow_256, Nat.pow_add, Nat.add_zero]
      constructor
      · rw [Nat.mul_assoc, Nat.mul_comm (2 ^ (8 - ones)) (2 ^ (8 * bs.length))]
      · rw [Nat.add_mul, Nat.sub_mul, Nat.one_mul, Nat.mul_assoc,
          Nat.mul_comm (2 ^ (8 - ones)) (2 ^ (8 * bs.length))]
        have hge : 2 ^ (8 * bs.length) ≤ 2 ^ (8 * bs.length) * 2 ^ (8 - ones) := Nat.le_mul_of_pos_right _ hpos'
        omega

/-- Between the ends of a network are the numbers that share its prefix. -/
theorem between_network_iff {ip : Bytes} {ones : Nat} (h : ones ≤ 8 * ip.length) (v : Nat) :
    beVal (network ip ones).ip ≤ v ∧ v ≤ beVal (lastIP (network ip ones)) ↔
      v / 2 ^ (8 * ip.length - ones) = beVal ip / 2 ^ (8 * ip.length - ones) := by
  obtain ⟨hlow, hhigh⟩ := network_ends ip ones h
  have hpos : 0 < 2 ^ (8 * ip.length - ones) := Nat.two_pow_pos _
  rw [hlow, hhigh]
  generalize 2 ^ (8 * ip.length - ones) = d at hpos ⊢
  generalize beVal ip / d = q
  rw [Nat.div_eq_iff hpos, Nat.mul_comm]
  constructor
  · rintro ⟨hle, hge⟩
    omega
  · rintro ⟨hle, hge⟩
    omega

end

end TorrServer.Waf
