import Z80Machine.Page
import Z80Machine.Text.Hex

/-!
Why a step fails.
-/
namespace Z80Machine

inductive Fault where
  /-- The opcode bytes, at most the last four, name no instruction; `address` is where they begin. -/
  | undefinedOpcode (address : Word) (opcode : List Byte)
  /-- A page was asked to go on with a byte that leads nowhere from there. The pages of this machine never
  are. -/
  | brokenChain (page : Page) (byte : Byte)
  deriving DecidableEq, Repr

def Fault.message : Fault → String
  | .undefinedOpcode address opcode =>
    "unimplemented opcode " ++ " ".intercalate (opcode.map Hex.capital) ++ " at 0x" ++ Hex.capitalWord address
  | .brokenChain page byte =>
    "decode table " ++ page.name ++ " cannot chain to prefix 0x" ++ Hex.capital byte

end Z80Machine
