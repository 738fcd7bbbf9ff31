/-
The hash function SHA-256 of FIPS 180-4 on messages of whole bytes.

Words are numbers in base 256, the first byte highest.  The constants are given by what
they are: the first 32 bits of the fractional parts of roots of the first primes.
-/
import Mathlib.Algebra.GroupWithZero.Nat
import Mathlib.Data.Nat.NthRoot.Defs

namespace Kil0yOS.Lib.Fips180

open List

def ofBytes (bytes : List UInt8) : Nat := bytes.foldl (fun v b => 256 * v + b.toNat) 0

/-- The last `n` digits of a number. -/
def toBytes (n v : Nat) : List UInt8 :=
  (range n).map fun i => UInt8.ofNat (v / 256 ^ (n - 1 - i))

/-- The first 64 primes.  A composite number below 18 * 18 has a divisor below 18. -/
def primes : List Nat := (range' 2 310).filter fun p => ∀ d ∈ range' 2 16, d ∣ p → d = p

/-- The first 32 bits of the fractional part of the cube root of a prime. -/
def cubeRoot (p : Nat) : UInt32 := UInt32.ofNat (Nat.nthRoot 3 (p * 2 ^ 96))

def squareRoot (p : Nat) : UInt32 := UInt32.ofNat (Nat.nthRoot 2 (p * 2 ^ 64))

def rotr (n : Nat) (x : UInt32) : UInt32 := ⟨x.toBitVec.rotateRight n⟩

def ch (x y z : UInt32) : UInt32 := (x &&& y) ^^^ (~~~x &&& z)

def maj (x y z : UInt32) : UInt32 := (x &&& y) ^^^ (x &&& z) ^^^ (y &&& z)

def bigSigma0 (x : UInt32) : UInt32 := rotr 2 x ^^^ rotr 13 x ^^^ rotr 22 x

def bigSigma1 (x : UInt32) : UInt32 := rotr 6 x ^^^ rotr 11 x ^^^ rotr 25 x

def sigma0 (x : UInt32) : UInt32 := rotr 7 x ^^^ rotr 18 x ^^^ x >>> 3

def sigma1 (x : UInt32) : UInt32 := rotr 17 x ^^^ rotr 19 x ^^^ x >>> 10

/-- The eight words of a hash value, and the eight working variables. -/
structure Words where
  a : UInt32
  b : UInt32
  c : UInt32
  d : UInt32
  e : UInt32
  f : UInt32
  g : UInt32
  h : UInt32
deriving DecidableEq

def Words.toList (x : Words) : List UInt32 := [x.a, x.b, x.c, x.d, x.e, x.f, x.g, x.h]

def Words.add (x y : Words) : Words :=
  ⟨x.a + y.a, x.b + y.b, x.c + y.c, x.d + y.d, x.e + y.e, x.f + y.f, x.g + y.g, x.h + y.h⟩

def initial : Words :=
  ⟨squareRoot 2, squareRoot 3, squareRoot 5, squareRoot 7, squareRoot 11, squareRoot 13,
    squareRoot 17, squareRoot 19⟩

/-- The message schedule of a block. -/
def W (block : Nat → UInt8) (t : Nat) : UInt32 :=
  if t < 16 then
    UInt32.ofNat (ofBytes [block (4 * t), block (4 * t + 1), block (4 * t + 2), block (4 * t + 3)])
  else sigma1 (W block (t - 2)) + W block (t - 7) + sigma0 (W block (t - 15)) + W block (t - 16)

def turn (w : Nat → UInt32) (x : Words) (t : Nat) : Words :=
  let t1 := x.h + bigSigma1 x.e + ch x.e x.f x.g + cubeRoot (primes.getD t 0) + w t
  let t2 := bigSigma0 x.a + maj x.a x.b x.c
  ⟨t1 + t2, x.a, x.b, x.c, x.d + t1, x.e, x.f, x.g⟩

def compress (x : Words) (block : Nat → UInt8) : Words :=
  x.add ((range 64).foldl (turn (W block)) x)

/-- The message, a one bit, zeros up to eight bytes below a multiple of 64, and the length
in bits. -/
def padded (message : List UInt8) : List UInt8 :=
  message ++ 0x80 :: replicate ((55 - (message.length : Int)) % 64).toNat 0 ++
    toBytes 8 (8 * message.length)

/-- Block `i` of the padded message. -/
def blockOf (message : List UInt8) (i j : Nat) : UInt8 := (padded message).getD (64 * i + j) 0

def messageDigest (message : List UInt8) : List UInt8 :=
  ((range ((padded message).length / 64)).foldl
    (fun x i => compress x (blockOf message i)) initial).toList.flatMap fun w => toBytes 4 w.toNat

end Kil0yOS.Lib.Fips180
