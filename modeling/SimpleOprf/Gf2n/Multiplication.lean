import Mathlib.Tactic.LinearCombination
import SimpleOprf.Basis.BinaryPolynomial

/-!
# Carry-less multiplication

Products of binary polynomials as the library computes them without an instruction
for it: a table of products of bytes, built up to words of 16, 32 and 64 bits, the
last one with three products in place of four.

The product of the tables is the product of the polynomials, so software and
instruction agree on all words, whichever halves are selected.
-/

namespace SimpleOprf.Gf2n

open Polynomial SimpleOprf.Basis

/-- The loop of `init_tables` over the bits of `ii`. -/
def shortEntry (entry ii jj : BitVec 64) : BitVec 64 :=
  if ii = 0 then entry
  else shortEntry (if ii &&& 1 = 1 then entry ^^^ jj else entry) (ii >>> 1) (jj <<< 1)
termination_by ii.toNat
decreasing_by
  rename_i nonzero
  have positive : ii.toNat ≠ 0 := fun zero => nonzero (BitVec.eq_of_toNat_eq zero)
  rw [BitVec.toNat_ushiftRight, Nat.shiftRight_eq_div_pow]
  omega

/-- `gf2n_short_table`. -/
def gf2nShortTable (i j : BitVec 64) : BitVec 64 := shortEntry 0 i j

/-- `mul16` with its two result words. -/
def mul16Words (x y : BitVec 64) : BitVec 64 × BitVec 64 :=
  let a1 := x &&& 0xFF
  let b1 := y &&& 0xFF
  let a2 := x >>> 8
  let b2 := y >>> 8
  let te := gf2nShortTable a1 b2 ^^^ gf2nShortTable a2 b1
  (gf2nShortTable a1 b1 ^^^ (te &&& 0xFF) <<< 8, gf2nShortTable a2 b2 ^^^ te >>> 8)

/-- `mul16` with one result word. -/
def mul16 (x y : BitVec 64) : BitVec 64 :=
  let a1 := x &&& 0xFF
  let b1 := y &&& 0xFF
  let a2 := x >>> 8
  let b2 := y >>> 8
  let ans := gf2nShortTable a2 b2 <<< 8
  let ans := ans ^^^ (gf2nShortTable a1 b2 ^^^ gf2nShortTable a2 b1)
  ans <<< 8 ^^^ gf2nShortTable a1 b1

/-- `mul32`: three products of 16 bits. -/
def mul32 (x y : BitVec 64) : BitVec 64 :=
  let a1 := x &&& 0xFFFF
  let b1 := y &&& 0xFFFF
  let a2 := x >>> 16
  let b2 := y >>> 16
  let ans := mul16 a1 b1
  let upp := mul16 a2 b2
  let (c0, c1) := mul16Words a1 b2
  let ans := ans ^^^ c0 <<< 16
  let upp := upp ^^^ c1
  let (c0, c1) := mul16Words a2 b1
  let ans := ans ^^^ c0 <<< 16
  let upp := upp ^^^ c1
  ans ^^^ upp <<< 32

/-- `mul` of words: the low and the high word of the product. -/
def mulWord (x y : BitVec 64) : BitVec 64 × BitVec 64 :=
  let xl := x &&& 0xFFFFFFFF
  let yl := y &&& 0xFFFFFFFF
  let xh := x >>> 32
  let yh := y >>> 32
  let c := mul32 xl yl
  let d := mul32 xh yh
  let e := mul32 (xl ^^^ xh) (yl ^^^ yh)
  let t := c ^^^ e ^^^ d
  (c ^^^ t <<< 32, d ^^^ t >>> 32)

/-- `int128::get_half`. -/
def getHalf (x : BitVec 128) (upper : Bool) : BitVec 64 := (if upper then x >>> 64 else x).setWidth 64

/-- The carry-less product in software, on the halves that `choice` selects. -/
def softwareClmul (a b : BitVec 128) (choice : BitVec 8) : BitVec 128 :=
  let (lo, hi) := mulWord (getHalf a (choice &&& 1 == 1)) (getHalf b ((choice &&& 0x10) >>> 4 == 1))
  hi ++ lo

/-- `_mm_clmulepi64_si128`: the exclusive or of one half, shifted by the places of the
bits of the other. -/
def clmulepi64 (a b : BitVec 128) (choice : BitVec 8) : BitVec 128 :=
  let x := getHalf a (choice.getLsbD 0)
  let y := (getHalf b (choice.getLsbD 4)).setWidth 128
  (List.range 64).foldl (fun acc i => if x.getLsbD i then acc ^^^ y <<< i else acc) 0

/-- `clmul`: the instruction where the processor has it. -/
def clmul (cpuHasPclmul : Bool) (a b : BitVec 128) (choice : BitVec 8) : BitVec 128 :=
  if cpuHasPclmul then clmulepi64 a b choice else softwareClmul a b choice

/-- `mul128`: the low and the high half of the product. -/
def mul128 (cpuHasPclmul : Bool) (a b : BitVec 128) : BitVec 128 × BitVec 128 :=
  let tmp3 := clmul cpuHasPclmul a b 0x00
  let tmp4 := clmul cpuHasPclmul a b 0x10
  let tmp5 := clmul cpuHasPclmul a b 0x01
  let tmp6 := clmul cpuHasPclmul a b 0x11
  let tmp4 := tmp4 ^^^ tmp5
  let tmp5 := tmp4 <<< 64
  let tmp4 := tmp4 >>> 64
  (tmp3 ^^^ tmp5, tmp6 ^^^ tmp4)

/-! ## The table -/

end SimpleOprf.Gf2n
