import Mathlib.Data.List.Basic

/-!
# Keccak-256

The sponge with 512 bits of capacity and the padding from before the standard, by
its definition. The state is five planes of five lanes, and a lane is a number
below `2 ^ 64`.

The steps are written on planes and take no index: `theta` and `chi` need the
neighbours of a lane in its row, which `prev` and `next` put in its place, and
`pi` is written out. So a digest can be evaluated in the kernel.

## Main definitions

* `Five`: Five of a kind in a circle.
* `Keccak.permute`: The permutation.
* `keccak256`: The digest.

## Theorems

* `length_keccak256`: It has 32 bytes.
-/

namespace WhisperNet

/-- Five of a kind, in a circle. -/
structure Five (α : Type) where
  a : α
  b : α
  c : α
  d : α
  e : α

namespace Five

variable {α β γ : Type}

def map (f : α → β) (x : Five α) : Five β := ⟨f x.a, f x.b, f x.c, f x.d, f x.e⟩

def zip (f : α → β → γ) (x : Five α) (y : Five β) : Five γ :=
  ⟨f x.a y.a, f x.b y.b, f x.c y.c, f x.d y.d, f x.e y.e⟩

def fold (f : α → α → α) (x : Five α) : α := f (f (f (f x.a x.b) x.c) x.d) x.e

/-- At each place the one after it. -/
def next (x : Five α) : Five α := ⟨x.b, x.c, x.d, x.e, x.a⟩

/-- At each place the one before it. -/
def prev (x : Five α) : Five α := ⟨x.e, x.a, x.b, x.c, x.d⟩

end Five

namespace Keccak

abbrev Plane := Five Nat

abbrev State := Five Plane

/-- A lane rotated to the left. -/
def rotl (n lane : Nat) : Nat := (lane <<< n ||| lane >>> (64 - n)) % 0x10000000000000000

def xorPlane : Plane → Plane → Plane := Five.zip Nat.xor

def theta (s : State) : State :=
  let parity := s.fold xorPlane
  s.map (xorPlane (xorPlane parity.prev (parity.next.map (rotl 1))))

def rhoOffsets : State :=
  ⟨⟨0, 1, 62, 28, 27⟩, ⟨36, 44, 6, 55, 20⟩, ⟨3, 10, 43, 25, 39⟩, ⟨41, 45, 15, 21, 8⟩,
    ⟨18, 2, 61, 56, 14⟩⟩

def rho (s : State) : State := rhoOffsets.zip (Five.zip rotl) s

def pi (s : State) : State :=
  ⟨⟨s.a.a, s.b.b, s.c.c, s.d.d, s.e.e⟩, ⟨s.a.d, s.b.e, s.c.a, s.d.b, s.e.c⟩,
    ⟨s.a.b, s.b.c, s.c.d, s.d.e, s.e.a⟩, ⟨s.a.e, s.b.a, s.c.b, s.d.c, s.e.d⟩,
    ⟨s.a.c, s.b.d, s.c.e, s.d.a, s.e.b⟩⟩

def andNot (x y : Nat) : Nat := Nat.land (Nat.xor x 0xFFFFFFFFFFFFFFFF) y

def chi (s : State) : State := s.map (fun p => xorPlane p (p.next.zip andNot p.next.next))

def iota (rc : Nat) (s : State) : State := { s with a := { s.a with a := Nat.xor s.a.a rc } }

def roundConstants : List Nat :=
  [0x0000000000000001, 0x0000000000008082, 0x800000000000808A, 0x8000000080008000,
    0x000000000000808B, 0x0000000080000001, 0x8000000080008081, 0x8000000000008009,
    0x000000000000008A, 0x0000000000000088, 0x0000000080008009, 0x000000008000000A,
    0x000000008000808B, 0x800000000000008B, 0x8000000000008089, 0x8000000000008003,
    0x8000000000008002, 0x8000000000000080, 0x000000000000800A, 0x800000008000000A,
    0x8000000080008081, 0x8000000000008080, 0x0000000080000001, 0x8000000080008008]

/-- The permutation, of 24 rounds. -/
def permute (s : State) : State :=
  roundConstants.foldl (fun s rc => iota rc (chi (pi (rho (theta s))))) s

/-- The length of a block, in bytes. -/
def rate : Nat := 136

/-- The padding to whole blocks. -/
def pad (b : List UInt8) : List UInt8 :=
  let n := rate - b.length % rate
  if n = 1 then b ++ [0x81] else b ++ 1 :: (List.replicate (n - 2) 0 ++ [0x80])

def littleEndian (b : List UInt8) : Nat := b.foldr (fun c n => c.toNat + 256 * n) 0

/-- The lanes of a block, and zeros for the rest. -/
def ofBlock (block : List UInt8) : State :=
  let lane := fun i => littleEndian ((block.drop (8 * i)).take 8)
  let plane := fun i => ⟨lane i, lane (i + 1), lane (i + 2), lane (i + 3), lane (i + 4)⟩
  ⟨plane 0, plane 5, plane 10, plane 15, plane 20⟩

def absorb (s : State) (block : List UInt8) : State := permute (s.zip xorPlane (ofBlock block))

/-- The blocks, one after the other. -/
def blocks (b : List UInt8) : List (List UInt8) :=
  (List.range (b.length / rate)).map (fun i => (b.drop (rate * i)).take rate)

def laneBytes (lane : Nat) : List UInt8 :=
  (List.range 8).map (fun i => UInt8.ofNat (lane >>> (8 * i)))

end Keccak

/-- The digest, of the first four lanes of the state after the last block. -/
def keccak256 (b : List UInt8) : List UInt8 :=
  let s := (Keccak.blocks (Keccak.pad b)).foldl Keccak.absorb (Keccak.ofBlock [])
  [s.a.a, s.a.b, s.a.c, s.a.d].flatMap Keccak.laneBytes

theorem Keccak.length_laneBytes (lane : Nat) : (Keccak.laneBytes lane).length = 8 := by
  rw [Keccak.laneBytes, List.length_map, List.length_range]

theorem length_keccak256 (b : List UInt8) : (keccak256 b).length = 32 := by
  simp only [keccak256, List.flatMap_cons, List.flatMap_nil, List.length_append,
    Keccak.length_laneBytes, List.length_nil]

/-- The digest of nothing. -/
example : keccak256 [] =
    [0xc5, 0xd2, 0x46, 0x01, 0x86, 0xf7, 0x23, 0x3c, 0x92, 0x7e, 0x7d, 0xb2, 0xdc, 0xc7, 0x03, 0xc0,
      0xe5, 0x00, 0xb6, 0x53, 0xca, 0x82, 0x27, 0x3b, 0x7b, 0xfa, 0xd8, 0x04, 0x5d, 0x85, 0xa4,
      0x70] := by
  decide +kernel

end WhisperNet
