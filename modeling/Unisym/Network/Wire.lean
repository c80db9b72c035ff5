/-
# `Wire` — bytes, words and addresses

What arrives or is sent is a list of bytes; a read outside of it gives nothing.  Words of two
and four bytes are in network order.
-/
import Mathlib.Data.List.Basic
import Mathlib.Algebra.Group.Nat.Defs

namespace Unisym.Network

abbrev Bytes := List UInt8

/-- `EthernetRead16`, of the two bytes -/
def word16 (hi lo : UInt8) : Nat := hi.toNat <<< 8 ||| lo.toNat

def ethernetRead16 (data : Bytes) (i : Nat) : Option Nat := do
  let d0 ← data[i]?
  let d1 ← data[i + 1]?
  some (word16 d0 d1)

def ethernetWrite16 (value : Nat) : Bytes := [UInt8.ofNat (value >>> 8), UInt8.ofNat value]

/-- `DHCPRead32` and `TCPRead32` -/
def read32 (data : Bytes) (i : Nat) : Option Nat := do
  let d0 ← data[i]?
  let d1 ← data[i + 1]?
  let d2 ← data[i + 2]?
  let d3 ← data[i + 3]?
  some (d0.toNat <<< 24 ||| d1.toNat <<< 16 ||| d2.toNat <<< 8 ||| d3.toNat)

/-- `DHCPWrite32` and `TCPWrite32` -/
def write32 (value : Nat) : Bytes :=
  [UInt8.ofNat (value >>> 24), UInt8.ofNat (value >>> 16), UInt8.ofNat (value >>> 8),
    UInt8.ofNat value]

/-! ## Addresses -/

structure IPv4Address where
  o0 : UInt8
  o1 : UInt8
  o2 : UInt8
  o3 : UInt8
deriving DecidableEq

namespace IPv4Address

/-- The address `IPv4Address{}` -/
def zero : IPv4Address := ⟨0, 0, 0, 0⟩

def octets (a : IPv4Address) : Bytes := [a.o0, a.o1, a.o2, a.o3]

def isZero (a : IPv4Address) : Bool := a.octets.all (· == 0)

end IPv4Address

def ipv4CopyAddress (data : Bytes) (i : Nat) : Option IPv4Address := do
  let d0 ← data[i]?
  let d1 ← data[i + 1]?
  let d2 ← data[i + 2]?
  let d3 ← data[i + 3]?
  some ⟨d0, d1, d2, d3⟩

structure MacAddress where
  o0 : UInt8
  o1 : UInt8
  o2 : UInt8
  o3 : UInt8
  o4 : UInt8
  o5 : UInt8
deriving DecidableEq

namespace MacAddress

def octets (m : MacAddress) : Bytes := [m.o0, m.o1, m.o2, m.o3, m.o4, m.o5]

def isZero (m : MacAddress) : Bool := m.octets.all (· == 0)

end MacAddress

def ethernetCopyAddress (data : Bytes) (i : Nat) : Option MacAddress := do
  let d0 ← data[i]?
  let d1 ← data[i + 1]?
  let d2 ← data[i + 2]?
  let d3 ← data[i + 3]?
  let d4 ← data[i + 4]?
  let d5 ← data[i + 5]?
  some ⟨d0, d1, d2, d3, d4, d5⟩

/-! ## What is written is read -/

theorem word16_eq (hi lo : UInt8) : word16 hi lo = hi.toNat * 256 + lo.toNat := by
  have hlo : lo.toNat < 2 ^ 8 := lo.toNat_lt
  rw [word16, ← Nat.shiftLeft_add_eq_or_of_lt hlo, Nat.shiftLeft_eq]

theorem word16_lt (hi lo : UInt8) : word16 hi lo < 2 ^ 16 := by
  have hlo := lo.toNat_lt
  have hhi := hi.toNat_lt
  rw [word16_eq]
  omega

theorem toNat_ofNat_shiftRight (value n : Nat) :
    (UInt8.ofNat (value >>> n)).toNat = value / 2 ^ n % 256 := by
  rw [Nat.shiftRight_eq_div_pow]
  exact UInt8.toNat_ofNat'

theorem word16_write (value : Nat) :
    word16 (UInt8.ofNat (value >>> 8)) (UInt8.ofNat value) = value % 2 ^ 16 := by
  have hlo : (UInt8.ofNat value).toNat = value % 256 := UInt8.toNat_ofNat'
  rw [word16_eq, toNat_ofNat_shiftRight, hlo]
  omega

theorem word32_eq (b0 b1 b2 b3 : UInt8) :
    b0.toNat <<< 24 ||| b1.toNat <<< 16 ||| b2.toNat <<< 8 ||| b3.toNat =
      ((b0.toNat * 256 + b1.toNat) * 256 + b2.toNat) * 256 + b3.toNat := by
  have h1 := b1.toNat_lt
  have h2 := b2.toNat_lt
  have h3 : b3.toNat < 2 ^ 8 := b3.toNat_lt
  have h23 : b2.toNat <<< 8 + b3.toNat < 2 ^ 16 := by
    rw [Nat.shiftLeft_eq]
    omega
  have h123 : b1.toNat <<< 16 + (b2.toNat <<< 8 + b3.toNat) < 2 ^ 24 := by
    rw [Nat.shiftLeft_eq]
    omega
  rw [Nat.or_assoc, Nat.or_assoc, ← Nat.shiftLeft_add_eq_or_of_lt h3,
    ← Nat.shiftLeft_add_eq_or_of_lt h23, ← Nat.shiftLeft_add_eq_or_of_lt h123]
  simp only [Nat.shiftLeft_eq]
  omega

theorem word32_write (value : Nat) :
    (UInt8.ofNat (value >>> 24)).toNat <<< 24 ||| (UInt8.ofNat (value >>> 16)).toNat <<< 16 |||
      (UInt8.ofNat (value >>> 8)).toNat <<< 8 ||| (UInt8.ofNat value).toNat = value % 2 ^ 32 := by
  have h0 : (UInt8.ofNat value).toNat = value % 256 := UInt8.toNat_ofNat'
  rw [word32_eq, toNat_ofNat_shiftRight, toNat_ofNat_shiftRight, toNat_ofNat_shiftRight, h0]
  omega

/-! ## Reads that stay inside -/

theorem getElem?_of_lt {data : Bytes} {i : Nat} (h : i < data.length) : ∃ d, data[i]? = some d :=
  ⟨data[i], List.getElem?_eq_getElem h⟩

theorem read32_inside {data : Bytes} {i : Nat} (h : i + 4 ≤ data.length) :
    ∃ n, read32 data i = some n := by
  obtain ⟨d0, h0⟩ := getElem?_of_lt (show i < data.length by omega)
  obtain ⟨d1, h1⟩ := getElem?_of_lt (show i + 1 < data.length by omega)
  obtain ⟨d2, h2⟩ := getElem?_of_lt (show i + 2 < data.length by omega)
  obtain ⟨d3, h3⟩ := getElem?_of_lt (show i + 3 < data.length by omega)
  exact ⟨_, by simp only [read32, h0, h1, h2, h3, Option.bind_eq_bind, Option.bind_some]; rfl⟩

theorem ipv4CopyAddress_inside {data : Bytes} {i : Nat} (h : i + 4 ≤ data.length) :
    ∃ a, ipv4CopyAddress data i = some a := by
  obtain ⟨d0, h0⟩ := getElem?_of_lt (show i < data.length by omega)
  obtain ⟨d1, h1⟩ := getElem?_of_lt (show i + 1 < data.length by omega)
  obtain ⟨d2, h2⟩ := getElem?_of_lt (show i + 2 < data.length by omega)
  obtain ⟨d3, h3⟩ := getElem?_of_lt (show i + 3 < data.length by omega)
  exact ⟨_, by simp only [ipv4CopyAddress, h0, h1, h2, h3, Option.bind_eq_bind, Option.bind_some]; rfl⟩

end Unisym.Network
