import Skyc.Lib.Memory

/-!
# Numbers of up to 257 words: `mln_bignum.c`

A number has a tag for its sign, a length, and an array of 64-bit words each of
which holds a digit of 32 bits.  An operation gets its numbers through pointers,
which may point to the same number.
-/

namespace Skyc.Melon

open Function

namespace Bignum

/-! ## Words and numbers -/

/-- `M_BIGNUM_UMAX` -/
def umax : ℕ :=
  2 ^ 32

/-- `M_BIGNUM_SIZE` -/
def size : ℕ :=
  257

/-- The value of an expression of type `mln_u64_t`. -/
def u64 (value : ℕ) : ℕ :=
  value % 2 ^ 64

/-- `a - b` for `a` and `b` of type `mln_u64_t`. -/
def sub64 (a b : ℕ) : ℕ :=
  u64 (a + 2 ^ 64 - b)

inductive Tag
  | positive
  | negative
deriving DecidableEq, Repr

/-- `^` on tags. -/
def Tag.xor : Tag → Tag → Tag
  | .positive, tag => tag
  | .negative, .positive => .negative
  | .negative, .negative => .positive

abbrev Words :=
  ℕ → ℕ

end Bignum

/-- `mln_bignum_t` -/
@[ext]
structure Bignum where
  tag : Bignum.Tag
  length : ℕ
  data : Bignum.Words

namespace Bignum

/-- `mln_bignum_zero()`, and a number after `memset` with zero. -/
def zero : Bignum :=
  ⟨.positive, 0, fun _ => 0⟩

/-- A positive number of one word. -/
def word (value : ℕ) : Bignum :=
  ⟨.positive, 1, update (fun _ => 0) 0 value⟩

def withTag (number : Bignum) (tag : Tag) : Bignum :=
  { number with tag := tag }

/-- The numbers behind the pointers `dest` and `src`; there is no other number
when the pointers are equal. -/
@[ext]
structure Operands where
  dest : Bignum
  other : Option Bignum

namespace Operands

def src (operands : Operands) : Bignum :=
  operands.other.getD operands.dest

def setDest (operands : Operands) (number : Bignum) : Operands :=
  { operands with dest := number }

def setSrc (operands : Operands) (number : Bignum) : Operands :=
  match operands.other with
  | none => { operands with dest := number }
  | some _ => { operands with other := some number }

/-- A word of `dest` is written. -/
def write (operands : Operands) (i value : ℕ) : Operands :=
  operands.setDest { operands.dest with data := update operands.dest.data i value }

end Operands

/-! ## Comparison -/

/-- The words below `n` from the highest one down. -/
def compareWords (data1 data2 : Words) : ℕ → Ordering
  | 0 => .eq
  | n + 1 =>
    if data1 n > data2 n then .gt
    else if data1 n < data2 n then .lt
    else compareWords data1 data2 n

/-- `__mln_bignum_abs_compare` -/
def absCompare (bn1 bn2 : Bignum) : Ordering :=
  if bn1.length ≠ bn2.length then
    if bn1.length > bn2.length then .gt else .lt
  else if bn1.length = 0 then
    .eq
  else
    compareWords bn1.data bn2.data bn1.length

/-- `__mln_bignum_compare` -/
def compare (bn1 bn2 : Bignum) : Ordering :=
  if bn1.length = bn2.length ∧ bn1.length = 0 then
    .eq
  else if bn1.tag ≠ bn2.tag then
    if bn1.tag = .positive then .gt else .lt
  else if bn1.length ≠ bn2.length then
    if bn1.tag = .positive then
      if bn1.length > bn2.length then .gt else .lt
    else
      if bn1.length > bn2.length then .lt else .gt
  else
    compareWords bn1.data bn2.data bn1.length

/-! ## Addition and subtraction -/

/-- The loop of `__mln_bignum_add` over `n` words from word `i` on.  The
operand with more words is `src` or `dest`. -/
def addLoop (srcLonger : Bool) : ℕ → ℕ → ℕ → Operands → Operands × ℕ
  | 0, _, carry, operands => (operands, carry)
  | n + 1, i, carry, operands =>
    let max := if srcLonger then operands.src else operands.dest
    let min := if srcLonger then operands.dest else operands.src
    let sum := u64 (max.data i + min.data i + carry)
    if umax ≤ sum then
      addLoop srcLonger n (i + 1) 1 (operands.write i (sub64 sum umax))
    else
      addLoop srcLonger n (i + 1) 0 (operands.write i sum)

/-- `__mln_bignum_add` after the test of the tags. -/
def addSameTag (operands : Operands) : Operands :=
  let srcLonger := decide (operands.dest.length < operands.src.length)
  let n := if srcLonger then operands.src.length else operands.dest.length
  let (operands, carry) := addLoop srcLonger n 0 0 operands
  let dest := operands.dest
  if carry ≠ 0 ∧ n < size then
    operands.setDest { dest with
      length := n + 1
      data := update dest.data n (u64 (dest.data n + carry)) }
  else
    operands.setDest { dest with length := n }

/-- The loop of `__mln_bignum_sub_core` over `n` words from word `i` on. -/
def subLoop (src : Words) : ℕ → ℕ → ℕ → Words → Words × ℕ
  | 0, _, borrow, dest => (dest, borrow)
  | n + 1, i, borrow, dest =>
    if u64 (src i + borrow) > dest i then
      subLoop src n (i + 1) 1 (update dest i (sub64 (u64 (dest i + umax)) (u64 (src i + borrow))))
    else
      subLoop src n (i + 1) 0 (update dest i (sub64 (dest i) (u64 (src i + borrow))))

def trim (data : Words) : ℕ → ℕ
  | 0 => 0
  | n + 1 => if data n ≠ 0 then n + 1 else trim data n

/-- `__mln_bignum_sub_core`; there is no result when its assertion fails. -/
def subCore (dest src : Bignum) : Option Bignum :=
  let (data, borrow) := subLoop src.data dest.length 0 0 dest.data
  if borrow = 0 then
    some { dest with length := trim data dest.length, data := data }
  else
    none

/-- `__mln_bignum_sub` after the test of the tags. -/
def subSameTag (operands : Operands) : Option Operands :=
  match compare operands.dest operands.src with
  | .eq => some (operands.setDest zero)
  | .lt =>
    if operands.dest.tag = .negative then do
      let operands := operands.setDest (operands.dest.withTag .positive)
      let operands := operands.setSrc (operands.src.withTag .positive)
      let dest ← subCore operands.dest operands.src
      let operands := operands.setDest (dest.withTag .negative)
      return operands.setSrc (operands.src.withTag .negative)
    else do
      let tmp ← subCore operands.src operands.dest
      return operands.setDest (tmp.withTag .negative)
  | .gt =>
    if operands.dest.tag = .negative then do
      let tmp := operands.src
      let operands := operands.setDest (operands.dest.withTag .positive)
      let tmp ← subCore (tmp.withTag .positive) operands.dest
      return operands.setDest (tmp.withTag .positive)
    else do
      let dest ← subCore operands.dest operands.src
      return operands.setDest dest

/-- `__mln_bignum_add`.  Its calls of `__mln_bignum_sub` find equal tags. -/
def add (operands : Operands) : Option Operands :=
  if operands.dest.tag ≠ operands.src.tag then
    if operands.dest.tag = .negative then do
      let tmp := operands.src
      let operands := operands.setDest (operands.dest.withTag .positive)
      let result ← subSameTag ⟨tmp, some operands.dest⟩
      return operands.setDest result.dest
    else do
      let operands := operands.setSrc (operands.src.withTag .positive)
      let operands ← subSameTag operands
      return operands.setSrc (operands.src.withTag .negative)
  else
    some (addSameTag operands)

/-- `__mln_bignum_sub`.  Its calls of `__mln_bignum_add` find equal tags. -/
def sub (operands : Operands) : Option Operands :=
  if operands.dest.tag ≠ operands.src.tag then
    if operands.dest.tag = .negative then
      let operands := operands.setSrc (operands.src.withTag .negative)
      let operands := addSameTag operands
      some (operands.setSrc (operands.src.withTag .positive))
    else
      let operands := operands.setSrc (operands.src.withTag .positive)
      let operands := addSameTag operands
      some (operands.setSrc (operands.src.withTag .negative))
  else
    subSameTag operands

/-! ## Multiplication -/

/-- The `for` loop of `__mln_bignum_mul_word` over `n` words from word `i`
on. -/
def mulWordLoop (src : ℕ) : ℕ → ℕ → ℕ → Words → Words × ℕ
  | 0, _, carry, data => (data, carry)
  | n + 1, i, carry, data =>
    let product := u64 (data i * src + carry)
    mulWordLoop src n (i + 1) (product / umax) (update data i (product % umax))

/-- The `while` loop of `__mln_bignum_mul_word`, which stays at word `i`.  A
turn leaves a smaller carry, but for a carry of one, which may stay for one
more turn: `carry + 1` turns are enough. -/
def carryLoop (i : ℕ) : ℕ → ℕ → ℕ → Words → ℕ × Words
  | 0, _, length, data => (length, data)
  | turns + 1, carry, length, data =>
    if carry = 0 then
      (length, data)
    else if size ≤ i then
      (length, data)
    else
      let sum := u64 (data i + carry)
      carryLoop i turns (sum / umax) (length + 1) (update data i (sum % umax))

/-- `__mln_bignum_mul_word` -/
def mulWord (dest : Bignum) (src : ℤ) : Bignum :=
  let tag := dest.tag.xor (if src < 0 then .negative else .positive)
  let (data, carry) := mulWordLoop (src.natAbs % umax) dest.length 0 0 dest.data
  let (length, data) := carryLoop dest.length (carry + 1) carry dest.length data
  ⟨tag, length, data⟩

/-- The inner loop of `__mln_bignum_mul` over `n` words of `src` from word `j`
on; the result is written from word `k` on. -/
def mulInner (factor : ℕ) (src : Words) : ℕ → ℕ → ℕ → Words → Words × ℕ
  | 0, _, k, res => (res, k)
  | n + 1, j, k, res =>
    if k < size then
      let tmp := u64 (factor * src j + res k)
      let res := update res k (tmp % umax)
      let res :=
        if k + 1 < size then
          update res (k + 1) (u64 (res (k + 1) + tmp / umax))
        else
          res
      mulInner factor src n (j + 1) (k + 1) res
    else
      (res, k)

/-- The outer loop of `__mln_bignum_mul` over `n` words of `dest` from word `i`
on; `k` is the value of the pointer `data`. -/
def mulOuter (dest src : Words) (srcLength : ℕ) : ℕ → ℕ → ℕ → Words → Words × ℕ
  | 0, _, k, res => (res, k)
  | n + 1, i, _, res =>
    if size ≤ i then
      mulOuter dest src srcLength n (i + 1) i res
    else
      let (res, k) := mulInner (dest i) src srcLength 0 i res
      mulOuter dest src srcLength n (i + 1) k res

/-- `__mln_bignum_mul` -/
def mul (operands : Operands) : Operands :=
  let dest := operands.dest
  let src := operands.src
  let tag := dest.tag.xor src.tag
  if src.length = 1 then
    operands.setDest ((mulWord dest (src.data 0)).withTag tag)
  else if dest.length = 1 then
    operands.setDest ((mulWord src (dest.data 0)).withTag tag)
  else if absCompare dest zero = .eq ∨ absCompare src zero = .eq then
    operands.setDest zero
  else
    let (data, k) := mulOuter dest.data src.data src.length dest.length 0 0 zero.data
    let length := if k < size ∧ data k ≠ 0 then k + 1 else k
    operands.setDest ⟨tag, length, data⟩

/-! ## Division -/

/-- `memcpy` of `n` words. -/
def copyWords (a r : Words) (n : ℕ) : Words :=
  fun i => if i < n then a i else r i

/-- The first loop of `__mln_bignum_nmul` over `m` words from word `i` on. -/
def nmulLoop (a : Words) (b : ℕ) : ℕ → ℕ → ℕ → Words → Words × ℕ
  | 0, _, c, r => (r, c)
  | m + 1, i, c, r =>
    let product := u64 (a i * b + c)
    nmulLoop a b m (i + 1) (product / umax) (update r i (product % umax))

/-- The second loop of `__mln_bignum_nmul` over `n` words from word `i` on. -/
def nmulCarry : ℕ → ℕ → ℕ → Words → Words
  | 0, _, _, r => r
  | n + 1, i, c, r => nmulCarry n (i + 1) (c / umax) (update r i (c % umax))

/-- `__mln_bignum_nmul`, whose result nothing uses. -/
def nmul (a : Words) (b : ℕ) (r : Words) (n m : ℕ) : Words :=
  let b := b % umax
  if b = 0 then
    copyWords (fun _ => 0) r n
  else if b = 1 then
    copyWords a r n
  else
    let (r, c) := nmulLoop a b m 0 0 r
    nmulCarry (n - m) m c r

/-- `__mln_bignum_nsbb(a, b, a, n)`, where `a` is word `k` of an array and `b`
is taken from word `i` on. -/
def nsbb (b : Words) : ℕ → ℕ → ℕ → ℕ → Words → Words × ℕ
  | 0, _, _, c, a => (a, c)
  | n + 1, k, i, c, a =>
    if a k < u64 (b i + c) then
      nsbb b n (k + 1) (i + 1) 1 (update a k (sub64 (sub64 (u64 (a k + umax)) (b i)) c))
    else
      nsbb b n (k + 1) (i + 1) 0 (update a k (sub64 (sub64 (a k) (b i)) c))

/-- `__mln_bignum_nadc(a, b, a, n)`, where `a` is word `k` of an array and `b`
is taken from word `i` on. -/
def nadc (b : Words) : ℕ → ℕ → ℕ → ℕ → Words → Words × ℕ
  | 0, _, _, c, a => (a, c)
  | n + 1, k, i, c, a =>
    let sum := u64 (a k + b i + c)
    if umax ≤ sum then
      nadc b n (k + 1) (i + 1) 1 (update a k (sub64 sum umax))
    else
      nadc b n (k + 1) (i + 1) 0 (update a k sum)

/-- The loop of `__mln_bignum_ndiv` over the words below `n`. -/
def ndivLoop (a : Words) (b : ℕ) : ℕ → ℕ → ℕ → Words → Words × ℕ
  | 0, _, len, r => (r, len)
  | n + 1, tmp, len, r =>
    let tmp := u64 (tmp + a n)
    let r := update r n (tmp / b)
    let len := if len = 0 ∧ r n ≠ 0 then n + 1 else len
    ndivLoop a b n (u64 (tmp % b * umax)) len r

/-- `__mln_bignum_ndiv`; the second component is its result as a length. -/
def ndiv (a : Words) (b : ℕ) (r : Words) (n : ℕ) : Words × ℕ :=
  let b := b % umax
  if b = 0 then
    (r, umax - 1)
  else if b = 1 then
    (copyWords a r n, trim a n)
  else
    ndivLoop a b n 0 0 r

/-- The loop of `__mln_bignum_div_word` over the words below `n`; the last
component is `tmp`. -/
def divWordLoop (src : ℕ) : ℕ → ℕ → Words → Words → Words × Words × ℕ
  | 0, tmp, dest, quotient => (dest, quotient, tmp)
  | n + 1, tmp, dest, quotient =>
    let tmp := u64 (tmp + dest n)
    divWordLoop src n (u64 (tmp % src * umax)) (update dest n 0) (update quotient n (tmp / src))

/-- `__mln_bignum_div_word`: the remainder and the quotient. -/
def divWord (dest : Bignum) (src : ℤ) : Option (Bignum × Bignum) :=
  if src = 0 then
    none
  else
    let tag := dest.tag.xor (if src < 0 then .negative else .positive)
    let src := (src % umax).toNat
    if src = 1 then
      some (zero, dest.withTag tag)
    else if dest.length = 0 then
      some (dest, zero)
    else
      let top := dest.length - 1
      let shorter := dest.data top < src
      let n := if shorter then top else top + 1
      let tmp := if shorter then u64 (dest.data top * umax) else 0
      let data :=
        if shorter then update dest.data top 0 else dest.data
      let result := divWordLoop src n tmp data zero.data
      let tmp := result.2.2
      some (⟨tag, if tmp ≠ 0 then 1 else 0, update result.1 0 (tmp / umax)⟩, ⟨tag, n, result.2.1⟩)

/-- The loop that corrects a trial digit of `__mln_bignum_div`: the two highest words of
the divisor, the third word of the dividend. -/
def trialDigit (high low next : ℕ) : ℕ → ℕ → ℕ
  | 0, _ => 0
  | q + 1, r =>
    if q + 1 = umax ∨ u64 ((q + 1) * low) > u64 (u64 (r * umax) + next) then
      let r := u64 (r + high)
      if umax ≤ r then q else trialDigit high low next q r
    else
      q + 1

/-- Step D3 of `__mln_bignum_div` for word `j`. -/
def trialQuotient (ps : Words) (slen j : ℕ) (pd : Words) : ℕ :=
  let high := ps (slen - 1)
  let t := u64 (u64 (pd (j + slen) * umax) + pd (j + slen - 1))
  trialDigit high (ps (slen - 2)) (pd (j + slen - 2)) (t / high) (t % high)

/-- Steps D4 to D7 of `__mln_bignum_div` for word `j` and the trial digit `q`:
the dividend and the digit. -/
def subtractProduct (ps : Words) (slen j q : ℕ) (pd : Words) : Words × ℕ :=
  let tmp := nmul ps q (fun _ => 0) (slen + 1) (slen + 1)
  let difference := nsbb tmp (slen + 1) j 0 0 pd
  if difference.2 ≠ 0 then
    ((nadc ps (slen + 1) j 0 0 difference.1).1, sub64 q 1)
  else
    (difference.1, q)

/-- The loop D2 of `__mln_bignum_div` over the words below `n`. -/
def divLoop (ps : Words) (slen : ℕ) : ℕ → Words → Words → Words × Words
  | 0, pd, quotient => (pd, quotient)
  | j + 1, pd, quotient =>
    let step := subtractProduct ps slen j (trialQuotient ps slen j pd) pd
    divLoop ps slen j step.1 (update quotient j step.2)

/-- `__mln_bignum_div`: the remainder, which it leaves in `dest`, and the
quotient, which it leaves in `quotient` unless that is `NULL`.  There is no
result when it returns `-1`. -/
def div (dest src : Bignum) : Option (Bignum × Bignum) :=
  let tag := dest.tag.xor src.tag
  if src.length = 0 then
    none
  else if src.length = 1 then do
    let (dest, quotient) ← divWord dest (src.data 0)
    return (dest.withTag tag, quotient.withTag tag)
  else
    match absCompare dest src with
    | .eq => some (zero, (word 1).withTag tag)
    | .lt => some (dest.withTag tag, zero)
    | .gt =>
      let dlen := dest.length
      let slen := src.length
      let d := umax / (src.data (slen - 1) + 1)
      let pd := nmul dest.data d (fun _ => 0) (dlen + 1) dlen
      let ps := nmul src.data d (fun _ => 0) slen slen
      let divided := divLoop ps slen (dlen - slen + 1) pd zero.data
      let j := dlen - slen
      let remainder := ndiv divided.1 d zero.data slen
      some (⟨tag, remainder.2, remainder.1⟩, ⟨tag, if divided.2 j ≠ 0 then j + 1 else j, divided.2⟩)

/-- What the pointers of `mln_bignum_div` point to; `quotient` may be
`NULL`. -/
structure DivArguments where
  dest : Bignum
  src : Bignum
  quotient : Option Bignum

/-- `mln_bignum_div`: its result and what it leaves. -/
def mlnBignumDiv (arguments : DivArguments) : ℤ × DivArguments :=
  match div arguments.dest arguments.src with
  | none => (-1, arguments)
  | some (remainder, quotient) =>
    (0, { arguments with
      dest := remainder
      quotient := arguments.quotient.map fun _ => quotient })

/-! ## Powers -/

/-- `__mln_bignum_bit_test` -/
def bitTest (bn : Bignum) (index : ℕ) : Bool :=
  (bn.data (index / 32)).testBit (index % 32)

/-- The highest bit below `n` that is set. -/
def topBit (bn : Bignum) : ℕ → Option ℕ
  | 0 => none
  | i + 1 => if bitTest bn i then some i else topBit bn i

/-- A product that is reduced when it has as many words as the modulus. -/
def mulMod (operands : Operands) (mod : Bignum) : Option Bignum :=
  let dest := (mul operands).dest
  if mod.length ≤ dest.length then do
    let (dest, _) ← div dest mod
    return dest
  else
    some dest

/-- The loop of `__mln_bignum_pwr` with a modulus over the bits below `n`. -/
def pwrModLoop (x exponent mod : Bignum) : ℕ → Bignum → Option Bignum
  | 0, dest => some dest
  | i + 1, dest => do
    let dest ← mulMod ⟨dest, none⟩ mod
    let dest ←
      if bitTest exponent i then mulMod ⟨dest, some x⟩ mod else some dest
    pwrModLoop x exponent mod i dest

/-- The loop of `__mln_bignum_pwr` without a modulus over the bits below
`n`. -/
def pwrLoop (x exponent : Bignum) : ℕ → Bignum → Bignum
  | 0, dest => dest
  | i + 1, dest =>
    let dest := (mul ⟨dest, none⟩).dest
    let dest :=
      if bitTest exponent i then (mul ⟨dest, some x⟩).dest else dest
    pwrLoop x exponent i dest

/-- `__mln_bignum_pwr`; there is no result when it returns `-1`. -/
def pwr (dest exponent : Bignum) (mod : Option Bignum) : Option Bignum :=
  if exponent.tag = .negative then
    none
  else
    match topBit exponent (exponent.length * 32) with
    | none => some (word 1)
    | some i =>
      match mod with
      | some mod => pwrModLoop dest exponent mod i dest
      | none => some (pwrLoop dest exponent i dest)

end Bignum

end Skyc.Melon
