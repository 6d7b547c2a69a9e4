import OsWorkbench.Library.DoubleWord

namespace OsWorkbench.Klib.Int64

open Library

/-- The union of a `du_int` and its two halves. -/
structure Udwords where
  high : BitVec 32
  low : BitVec 32
deriving DecidableEq

def Udwords.all (x : Udwords) : BitVec 64 := x.high ++ x.low

def Udwords.ofAll (x : BitVec 64) : Udwords := ⟨x.extractLsb' 32 32, x.extractLsb' 0 32⟩

/-- A `su_int` as a `du_int`. -/
def widen (x : BitVec 32) : BitVec 64 := 0#32 ++ x

/-! An operation that C leaves undefined is `none`: a division by zero, a shift by the width or
more, the count of the zeros of zero. -/

def udiv (n d : BitVec 32) : Option (BitVec 32) := if d = 0 then none else some (n / d)

def umod (n d : BitVec 32) : Option (BitVec 32) := if d = 0 then none else some (n % d)

def shl (x k : BitVec 32) : Option (BitVec 32) :=
  if k.toNat < 32 then some (x <<< k.toNat) else none

def shr (x k : BitVec 32) : Option (BitVec 32) :=
  if k.toNat < 32 then some (x >>> k.toNat) else none

def builtinClz (x : BitVec 32) : Option (BitVec 32) := if x = 0 then none else some x.clz

def builtinCtz (x : BitVec 32) : Option (BitVec 32) := if x = 0 then none else some x.ctz

/-- What comes before the loop: a result, or the registers the loop starts with. -/
inductive Setup
  | done (q rem : BitVec 64)
  | loop (sr : BitVec 32) (q r : Udwords)
deriving DecidableEq

/-- The registers for a shift by less than a word. -/
def shiftBelow (n : Udwords) (sr : BitVec 32) : Option Setup := do
  let qHigh ← shl n.low (32 - sr)
  let rHigh ← shr n.high sr
  let left ← shl n.high (32 - sr)
  let right ← shr n.low sr
  some (.loop sr ⟨qHigh, 0⟩ ⟨rHigh, left ||| right⟩)

/-- The registers for a shift by a word. -/
def shiftWord (n : Udwords) (sr : BitVec 32) : Setup := .loop sr ⟨n.low, 0⟩ ⟨0, n.high⟩

/-- The registers for a shift by more than a word. -/
def shiftAbove (n : Udwords) (sr : BitVec 32) : Option Setup := do
  let qLow ← shl n.low (64 - sr)
  let left ← shl n.high (64 - sr)
  let right ← shr n.low (sr - 32)
  let rLow ← shr n.high (sr - 32)
  some (.loop sr ⟨left ||| right, qLow⟩ ⟨0, rLow⟩)

/-- Both high words are zero. -/
def divideLow (n d : Udwords) : Option Setup := do
  let q ← udiv n.low d.low
  let rem ← umod n.low d.low
  some (.done (widen q) (widen rem))

/-- The low word of the divisor is zero. -/
def divideHigh (n d : Udwords) : Option Setup :=
  if d.high = 0 then do
    let q ← udiv n.high d.low
    let rem ← umod n.high d.low
    some (.done (widen q) (widen rem))
  else if n.low = 0 then do
    let q ← udiv n.high d.high
    let rem ← umod n.high d.high
    some (.done (widen q) (Udwords.all ⟨rem, 0⟩))
  else if d.high &&& (d.high - 1) = 0 then do
    let shift ← builtinCtz d.high
    let q ← shr n.high shift
    some (.done (widen q) (Udwords.all ⟨n.high &&& (d.high - 1), n.low⟩))
  else do
    let dz ← builtinClz d.high
    let nz ← builtinClz n.high
    let sr := dz - nz
    if 30 < sr then some (.done 0 n.all) else shiftBelow n (sr + 1)

/-- The high word of the divisor is zero and the low one is not. -/
def divideSmall (n d : Udwords) : Option Setup :=
  if d.low &&& (d.low - 1) = 0 then
    let rem := widen (n.low &&& (d.low - 1))
    if d.low = 1 then some (.done n.all rem) else do
      let sr ← builtinCtz d.low
      let qHigh ← shr n.high sr
      let left ← shl n.high (32 - sr)
      let right ← shr n.low sr
      some (.done (Udwords.all ⟨qHigh, left ||| right⟩) rem)
  else do
    let dz ← builtinClz d.low
    let nz ← builtinClz n.high
    let sr := 1 + 32 + dz - nz
    if sr = 32 then some (shiftWord n sr)
    else if sr < 32 then shiftBelow n sr
    else shiftAbove n sr

/-- Neither word of the divisor is zero. -/
def divideLarge (n d : Udwords) : Option Setup := do
  let dz ← builtinClz d.high
  let nz ← builtinClz n.high
  let sr := dz - nz
  if 31 < sr then some (.done 0 n.all)
  else if sr + 1 = 32 then some (shiftWord n (sr + 1))
  else shiftBelow n (sr + 1)

def setup (n d : Udwords) : Option Setup :=
  if n.high = 0 then
    if d.high = 0 then divideLow n d else some (.done 0 (widen n.low))
  else if d.low = 0 then divideHigh n d
  else if d.high = 0 then divideSmall n d
  else divideLarge n d

/-- The registers of the loop. -/
structure Registers where
  q : Udwords
  r : Udwords
  carry : BitVec 32
deriving DecidableEq

/-- One bit of `q` moves into `r`, and the carry of the step before into `q`. -/
def divStep (d : Udwords) (regs : Registers) : Registers :=
  let r : Udwords := ⟨regs.r.high <<< 1 ||| regs.r.low >>> 31,
    regs.r.low <<< 1 ||| regs.q.high >>> 31⟩
  let q : Udwords := ⟨regs.q.high <<< 1 ||| regs.q.low >>> 31, regs.q.low <<< 1 ||| regs.carry⟩
  -- All ones where the remainder reaches the divisor.
  let s := (d.all - r.all - 1).sshiftRight 63
  ⟨q, Udwords.ofAll (r.all - (d.all &&& s)), (s &&& 1).extractLsb' 0 32⟩

def divLoop (d : Udwords) : ℕ → Registers → Registers
  | 0, regs => regs
  | sr + 1, regs => divLoop d sr (divStep d regs)

/-- The quotient, and what is stored through `rem` when it is not null. -/
def udivmoddi4 (a b : BitVec 64) : Option (BitVec 64 × BitVec 64) :=
  let d := Udwords.ofAll b
  match setup (Udwords.ofAll a) d with
  | none => none
  | some (.done q rem) => some (q, rem)
  | some (.loop sr q r) =>
    let regs := divLoop d sr.toNat ⟨q, r, 0⟩
    some (regs.q.all <<< 1 ||| widen regs.carry, regs.r.all)

def udivdi3 (a b : BitVec 64) : Option (BitVec 64) := (udivmoddi4 a b).map Prod.fst

def umoddi3 (a b : BitVec 64) : Option (BitVec 64) := (udivmoddi4 a b).map Prod.snd

/-- The value is negated where the sign is all ones; `INT64_MIN` wraps around to itself. -/
def negateBy (s a : BitVec 64) : BitVec 64 := (a ^^^ s) - s

def divdi3 (a b : BitVec 64) : Option (BitVec 64) :=
  let sA := a.sshiftRight 63
  let sB := b.sshiftRight 63
  (udivdi3 (negateBy sA a) (negateBy sB b)).map (negateBy (sA ^^^ sB))

def moddi3 (a b : BitVec 64) : Option (BitVec 64) :=
  let sB := b.sshiftRight 63
  let sA := a.sshiftRight 63
  (umoddi3 (negateBy sA a) (negateBy sB b)).map (negateBy sA)

/-- The quotient and `*rem`. -/
def divmoddi4 (a b : BitVec 64) : Option (BitVec 64 × BitVec 64) :=
  (divdi3 a b).map fun d ↦ (d, a - d * b)

/-- A truth value as an `int`. -/
def truth (p : Bool) : BitVec 32 := if p then 1 else 0

/-- One halving of the search for the highest bit: the upper half of the window is tested, and
the half that holds the bit moves to the bottom. -/
def clzHalf (mask half : BitVec 32) (k : ℕ) (xr : BitVec 32 × BitVec 32) :
    Option (BitVec 32 × BitVec 32) :=
  let t := truth (xr.1 &&& mask = 0) <<< k
  (shr xr.1 (half - t)).map fun x ↦ (x, xr.2 + t)

def clzsi2 (a : BitVec 32) : Option (BitVec 32) := do
  let xr ← clzHalf 0xFFFF0000 16 4 (a, 0)
  let xr ← clzHalf 0xFF00 8 3 xr
  let xr ← clzHalf 0xF0 4 2 xr
  let xr ← clzHalf 0xC 2 1 xr
  some (xr.2 + ((2 - xr.1) &&& -truth (xr.1 &&& 2 = 0)))

/-- One halving of the search for the lowest bit. -/
def ctzHalf (mask : BitVec 32) (k : ℕ) (xr : BitVec 32 × BitVec 32) :
    Option (BitVec 32 × BitVec 32) :=
  let t := truth (xr.1 &&& mask = 0) <<< k
  (shr xr.1 t).map fun x ↦ (x, xr.2 + t)

def ctzsi2 (a : BitVec 32) : Option (BitVec 32) := do
  let xr ← ctzHalf 0x0000FFFF 4 (a, 0)
  let xr ← ctzHalf 0x00FF 3 xr
  let xr ← ctzHalf 0x0F 2 xr
  let xr ← ctzHalf 0x3 1 xr
  let x := xr.1 &&& 3
  some (xr.2 + ((2 - x >>> 1) &&& -truth (x &&& 1 = 0)))

def clzdi2 (a : BitVec 64) : Option (BitVec 32) :=
  let x := Udwords.ofAll a
  let f := -truth (x.high = 0)
  (clzsi2 ((x.high &&& ~~~f) ||| (x.low &&& f))).map fun z ↦ z + (f &&& 32)

def ctzdi2 (a : BitVec 64) : Option (BitVec 32) :=
  let x := Udwords.ofAll a
  let f := -truth (x.low = 0)
  (ctzsi2 ((x.high &&& f) ||| (x.low &&& ~~~f))).map fun z ↦ z + (f &&& 32)

end OsWorkbench.Klib.Int64
