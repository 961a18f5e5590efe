/-!
# Alarm channels

A set of at most 32 channels, kept as the bits of a word. `meets_iff` says that two sets meet if
they have a bit in common.
-/

namespace Dashboard.Alarm

structure Channels where
  bits : UInt32
  deriving DecidableEq

namespace Channels

def none : Channels :=
  ⟨0⟩

def all : Channels :=
  ⟨UInt32.ofNat (UInt32.size - 1)⟩

/-- The set of one channel. There are no channels past the 31st. -/
def single (n : Nat) : Channels :=
  if n < 32 then ⟨UInt32.ofNat (Nat.pow 2 n)⟩ else none

def union (a b : Channels) : Channels :=
  ⟨a.bits ||| b.bits⟩

instance : OrOp Channels := ⟨union⟩

def meets (a b : Channels) : Bool :=
  a.bits &&& b.bits != 0

/-- The channels that sites use by default. -/
def named : List (String × Channels) :=
  [("NONE", none), ("GENERIC", single 0), ("POWER", single 1), ("LIGHTS", single 2),
    ("SECURE", single 3), ("WEATHER", single 4), ("AC", single 5), ("YARD", single 6),
    ("GNHAST", single 7), ("SYSTEM", single 8), ("EMERG", single 9), ("MESSAGING", single 10),
    ("USER1", single 24), ("USER2", single 25), ("USER3", single 26), ("USER4", single 27),
    ("USER5", single 28), ("USER6", single 29), ("USER7", single 30), ("USER8", single 31),
    ("ALL", all)]

def has (a : Channels) (n : Nat) : Prop :=
  a.bits.toNat.testBit n = true

theorem meets_iff (a b : Channels) : a.meets b = true ↔ ∃ n, a.has n ∧ b.has n := by
  have hand : (a.bits &&& b.bits).toNat = a.bits.toNat &&& b.bits.toNat := UInt32.toNat_and ..
  simp only [meets, has, bne_iff_ne, ne_eq]
  rw [← UInt32.toNat_inj, hand]
  constructor
  · intro h
    obtain ⟨n, hn⟩ := Nat.exists_testBit_of_ne_zero h
    rw [Nat.testBit_and, Bool.and_eq_true] at hn
    exact ⟨n, hn⟩
  · rintro ⟨n, ha, hb⟩ h
    have ht := Nat.testBit_and a.bits.toNat b.bits.toNat n
    rw [h, ha, hb] at ht
    simp at ht

end Channels

end Dashboard.Alarm
