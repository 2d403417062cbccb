import Z80Machine.Microcode.Transfer

/-!
Microcode of jumps, calls and returns, and of the operations that control interrupts.
-/
namespace Z80Machine

open Microcode

/-- Whether the condition holds now; without one it always does. -/
def taken : Option Condition → Microcode Bool
  | none => return true
  | some k => return k.holds (← registers).f

def jumpRelative (d : Byte) : Microcode Unit := do
  pause 5
  goTo ((← registers).pc.displace d)

def goBack : Microcode Unit := do goTo (← popWord)

/-- Leaves the program counter on the stack and goes to `a`. -/
def enter (a : Word) : Microcode Unit := do
  pushWord (← registers).pc
  goTo a

def Jump.execute : Jump → Microcode Unit
  | .absolute k => do
    let a ← operandWord
    latchAddress a
    if ← taken k then goTo a
  | .toBase b => update fun k => { k with pc := k.base b }
  | .relative k => do
    let d ← operand
    if ← taken k then jumpRelative d
  | .countdown => do
    pause 1
    let d ← operand
    update fun k => { k with b := k.b - 1 }
    if (← registers).b ≠ 0 then jumpRelative d
  | .call k => do
    let a ← operandWord
    latchAddress a
    if ← taken k then
      pause 1
      enter a
  | .return none | .returnInterrupt => goBack
  | .return (some k) => do
    pause 1
    if ← taken (some k) then goBack
  | .returnNmi => do
    goBack
    update fun k => { k with iff1 := k.iff2 }
  | .restart n => do
    pause 1
    enter ((restartAddress n).setWidth 16)

def Control.execute : Control → Microcode Unit
  | .nop => return
  | .halt => update fun k => { k with halted := true }
  | .disableInterrupts => update fun k => { k with iff1 := false, iff2 := false }
  | .enableInterrupts => do
    update fun k => { k with iff1 := true, iff2 := true }
    modify fun s => { s with eiDelay := true }
  | .interruptMode mode => update fun k => { k with im := BitVec.ofNat 8 mode.val }

end Z80Machine
