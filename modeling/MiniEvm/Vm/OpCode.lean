import MiniEvm.Common.Big

namespace MiniEvm

/-- The opcodes of the jump tables; `PUSH n`, `DUP n`, `SWAP n` stand for `PUSH(n+1)` and so on. -/
inductive OpCode where
  | STOP | ADD | MUL | SUB | DIV | SDIV | MOD | SMOD | ADDMOD | MULMOD | EXP | SIGNEXTEND
  | LT | GT | SLT | SGT | EQ | ISZERO | AND | OR | XOR | NOT | BYTE
  | SHA3
  | ADDRESS | BALANCE | ORIGIN | CALLER | CALLVALUE | CALLDATALOAD | CALLDATASIZE | CALLDATACOPY
  | CODESIZE | CODECOPY | GASPRICE | EXTCODESIZE | EXTCODECOPY | RETURNDATASIZE | RETURNDATACOPY
  | BLOCKHASH | COINBASE | TIMESTAMP | NUMBER | DIFFICULTY | GASLIMIT
  | POP | MLOAD | MSTORE | MSTORE8 | SLOAD | SSTORE | JUMP | JUMPI | PC | MSIZE | GAS | JUMPDEST
  | PUSH (n : Fin 32) | DUP (n : Fin 16) | SWAP (n : Fin 16) | LOG (n : Fin 5)
  | CREATE | CALL | CALLCODE | RETURN | DELEGATECALL | STATICCALL | REVERT | SELFDESTRUCT
  deriving DecidableEq

namespace OpCode

/-- The opcodes whose byte is a constant of its own. -/
def singles : List (UInt8 × OpCode) :=
  [(0x00, STOP), (0x01, ADD), (0x02, MUL), (0x03, SUB), (0x04, DIV), (0x05, SDIV), (0x06, MOD),
   (0x07, SMOD), (0x08, ADDMOD), (0x09, MULMOD), (0x0a, EXP), (0x0b, SIGNEXTEND),
   (0x10, LT), (0x11, GT), (0x12, SLT), (0x13, SGT), (0x14, EQ), (0x15, ISZERO), (0x16, AND),
   (0x17, OR), (0x18, XOR), (0x19, NOT), (0x1a, BYTE), (0x20, SHA3),
   (0x30, ADDRESS), (0x31, BALANCE), (0x32, ORIGIN), (0x33, CALLER), (0x34, CALLVALUE),
   (0x35, CALLDATALOAD), (0x36, CALLDATASIZE), (0x37, CALLDATACOPY), (0x38, CODESIZE),
   (0x39, CODECOPY), (0x3a, GASPRICE), (0x3b, EXTCODESIZE), (0x3c, EXTCODECOPY),
   (0x3d, RETURNDATASIZE), (0x3e, RETURNDATACOPY),
   (0x40, BLOCKHASH), (0x41, COINBASE), (0x42, TIMESTAMP), (0x43, NUMBER), (0x44, DIFFICULTY),
   (0x45, GASLIMIT),
   (0x50, POP), (0x51, MLOAD), (0x52, MSTORE), (0x53, MSTORE8), (0x54, SLOAD), (0x55, SSTORE),
   (0x56, JUMP), (0x57, JUMPI), (0x58, PC), (0x59, MSIZE), (0x5a, GAS), (0x5b, JUMPDEST),
   (0xf0, CREATE), (0xf1, CALL), (0xf2, CALLCODE), (0xf3, RETURN), (0xf4, DELEGATECALL),
   (0xfa, STATICCALL), (0xfd, REVERT), (0xff, SELFDESTRUCT)]

/-- The opcode of a byte; no jump table has an entry for the remaining bytes. -/
def ofByte (b : UInt8) : Option OpCode :=
  if 0x60 ≤ b ∧ b ≤ 0x7f then some (PUSH (Fin.ofNat 32 (b.toNat - 0x60)))
  else if 0x80 ≤ b ∧ b ≤ 0x8f then some (DUP (Fin.ofNat 16 (b.toNat - 0x80)))
  else if 0x90 ≤ b ∧ b ≤ 0x9f then some (SWAP (Fin.ofNat 16 (b.toNat - 0x90)))
  else if 0xa0 ≤ b ∧ b ≤ 0xa4 then some (LOG (Fin.ofNat 5 (b.toNat - 0xa0)))
  else singles.lookup b

/-- The instructions that enter another frame. -/
def isCall : OpCode → Bool
  | CREATE | CALL | CALLCODE | DELEGATECALL | STATICCALL => true
  | _ => false

end OpCode

end MiniEvm
