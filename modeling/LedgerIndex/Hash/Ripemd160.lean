import LedgerIndex.Bytes

/-!
# RIPEMD-160

Two lines of eighty steps run over the same block and are added crosswise into
the chaining state. Words and the length are little-endian.
-/
namespace LedgerIndex.Hash.Ripemd160

structure State where
  a : UInt32
  b : UInt32
  c : UInt32
  d : UInt32
  e : UInt32

def State.initial : State :=
  ⟨0x67452301, 0xefcdab89, 0x98badcfe, 0x10325476, 0xc3d2e1f0⟩

/-- Word selection of the left line. -/
def leftOrder : List Nat :=
  [0, 1, 2, 3, 4, 5, 6, 7, 8, 9, 10, 11, 12, 13, 14, 15,
   7, 4, 13, 1, 10, 6, 15, 3, 12, 0, 9, 5, 2, 14, 11, 8,
   3, 10, 14, 4, 9, 15, 8, 1, 2, 7, 0, 6, 13, 11, 5, 12,
   1, 9, 11, 10, 0, 8, 12, 4, 13, 3, 7, 15, 14, 5, 6, 2,
   4, 0, 5, 9, 7, 12, 2, 10, 14, 1, 3, 8, 11, 6, 15, 13]

/-- Word selection of the right line. -/
def rightOrder : List Nat :=
  [5, 14, 7, 0, 9, 2, 11, 4, 13, 6, 15, 8, 1, 10, 3, 12,
   6, 11, 3, 7, 0, 13, 5, 10, 14, 15, 8, 12, 4, 9, 1, 2,
   15, 5, 1, 3, 7, 14, 6, 9, 11, 8, 12, 2, 10, 0, 4, 13,
   8, 6, 4, 1, 3, 11, 15, 0, 5, 12, 2, 13, 9, 7, 10, 14,
   12, 15, 10, 4, 1, 5, 8, 7, 6, 2, 13, 14, 0, 3, 9, 11]

/-- Rotations of the left line. -/
def leftShifts : List UInt32 :=
  [11, 14, 15, 12, 5, 8, 7, 9, 11, 13, 14, 15, 6, 7, 9, 8,
   7, 6, 8, 13, 11, 9, 7, 15, 7, 12, 15, 9, 11, 7, 13, 12,
   11, 13, 6, 7, 14, 9, 13, 15, 14, 8, 13, 6, 5, 12, 7, 5,
   11, 12, 14, 15, 14, 15, 9, 8, 9, 14, 5, 6, 8, 6, 5, 12,
   9, 15, 5, 11, 6, 8, 13, 12, 5, 12, 13, 14, 11, 8, 5, 6]

/-- Rotations of the right line. -/
def rightShifts : List UInt32 :=
  [8, 9, 9, 11, 13, 15, 15, 5, 7, 7, 8, 11, 14, 14, 12, 6,
   9, 13, 15, 7, 12, 8, 9, 11, 7, 7, 12, 7, 6, 15, 13, 11,
   9, 7, 15, 11, 8, 6, 6, 14, 12, 13, 5, 14, 13, 13, 7, 5,
   15, 5, 8, 11, 14, 14, 6, 14, 6, 9, 12, 9, 12, 5, 15, 8,
   8, 5, 12, 9, 12, 5, 14, 6, 8, 13, 6, 5, 15, 13, 11, 11]

/-- The Boolean function of each group of sixteen steps. -/
def mix (group : Nat) (x y z : UInt32) : UInt32 :=
  match group with
  | 0 => x ^^^ y ^^^ z
  | 1 => (x &&& y) ||| (~~~x &&& z)
  | 2 => (x ||| ~~~y) ^^^ z
  | 3 => (x &&& z) ||| (y &&& ~~~z)
  | _ => x ^^^ (y ||| ~~~z)

def leftConstants : List UInt32 := [0, 0x5a827999, 0x6ed9eba1, 0x8f1bbcdc, 0xa953fd4e]
def rightConstants : List UInt32 := [0x50a28be6, 0x5c4dd124, 0x6d703ef3, 0x7a6d76e9, 0]

def rotateLeft (x n : UInt32) : UInt32 :=
  (x <<< n) ||| (x >>> (32 - n))

/-- One step: Boolean function, message word, additive constant, rotation. -/
def State.step (s : State) (group : Nat) (word constant shift : UInt32) : State :=
  let t := rotateLeft (s.a + mix group s.b s.c s.d + word + constant) shift + s.e
  ⟨s.e, t, s.b, rotateLeft s.c 10, s.d⟩

/-- One line of eighty steps; `group` says which Boolean function step `j` uses. -/
def line (order : List Nat) (shifts : List UInt32) (constants : List UInt32)
    (group : Nat → Nat) (block : List UInt32) (s : State) : State :=
  ((order.zip shifts).zipIdx).foldl
    (fun t x => t.step (group (x.2 / 16)) (block.getD x.1.1 0) (constants.getD (x.2 / 16) 0) x.1.2)
    s

def State.compress (s : State) (block : List UInt32) : State :=
  let l := line leftOrder leftShifts leftConstants id block s
  let r := line rightOrder rightShifts rightConstants (4 - ·) block s
  ⟨s.b + l.c + r.d, s.c + l.d + r.e, s.d + l.e + r.a, s.e + l.a + r.b, s.a + l.b + r.c⟩

/-- Little-endian 32-bit words of a byte string of a multiple of four bytes. -/
def words : Bytes → List UInt32
  | a :: b :: c :: d :: rest =>
    (a.toUInt32 ||| b.toUInt32 <<< 8 ||| c.toUInt32 <<< 16 ||| d.toUInt32 <<< 24) :: words rest
  | _ => []

def absorb : (blocks : Nat) → State → List UInt32 → State
  | 0, s, _ => s
  | n + 1, s, ws => absorb n (s.compress (ws.take 16)) (ws.drop 16)

def pad (message : Bytes) : Bytes :=
  message ++ 0x80 :: List.replicate ((119 - message.length % 64) % 64) 0
    ++ Bytes.ofNatLittle 8 (8 * message.length)

def State.toBytes (s : State) : Bytes :=
  [s.a, s.b, s.c, s.d, s.e].flatMap fun w => Bytes.ofNatLittle 4 w.toNat

/-- The 20-byte digest of a message. -/
def digest (message : Bytes) : Bytes :=
  let padded := pad message
  (absorb (padded.length / 64) .initial (words padded)).toBytes

@[simp] theorem length_digest (message : Bytes) : (digest message).length = 20 := by
  simp [digest, State.toBytes]

end LedgerIndex.Hash.Ripemd160
