namespace ShaderSplit.Blake3

abbrev Block := Vector UInt32 16
abbrev Chaining := Vector UInt32 8

def iv : Chaining :=
  #v[0x6A09E667, 0xBB67AE85, 0x3C6EF372, 0xA54FF53A, 0x510E527F, 0x9B05688C, 0x1F83D9AB, 0x5BE0CD19]

def chunkStart : UInt32 := 1
def chunkEnd : UInt32 := 2
def parentFlag : UInt32 := 4
def rootFlag : UInt32 := 8

def rotateRight (x n : UInt32) : UInt32 := (x >>> n) ||| (x <<< (32 - n))

def mix (s : Block) (a b c d : Fin 16) (x y : UInt32) : Block :=
  let a₁ := s[a] + s[b] + x
  let d₁ := rotateRight (s[d] ^^^ a₁) 16
  let c₁ := s[c] + d₁
  let b₁ := rotateRight (s[b] ^^^ c₁) 12
  let a₂ := a₁ + b₁ + y
  let d₂ := rotateRight (d₁ ^^^ a₂) 8
  let c₂ := c₁ + d₂
  let b₂ := rotateRight (b₁ ^^^ c₂) 7
  (((s.set a a₂).set b b₂).set c c₂).set d d₂

def round (s m : Block) : Block :=
  let s := mix s 0 4 8 12 m[0] m[1]
  let s := mix s 1 5 9 13 m[2] m[3]
  let s := mix s 2 6 10 14 m[4] m[5]
  let s := mix s 3 7 11 15 m[6] m[7]
  let s := mix s 0 5 10 15 m[8] m[9]
  let s := mix s 1 6 11 12 m[10] m[11]
  let s := mix s 2 7 8 13 m[12] m[13]
  mix s 3 4 9 14 m[14] m[15]

/-- The order in which the next round takes the message words. -/
def permute (m : Block) : Block :=
  #v[m[2], m[6], m[3], m[10], m[7], m[0], m[4], m[13],
    m[1], m[11], m[12], m[5], m[9], m[14], m[15], m[8]]

def rounds : Nat → Block → Block → Block
  | 0, s, _ => s
  | n + 1, s, m => rounds n (round s m) (permute m)

/-- A compression that is still to be done; only the root's is done with its flag. -/
structure Node where
  chaining : Chaining
  block : Block
  counter : Nat
  length : Nat
  flags : UInt32

namespace Node

def compress (n : Node) (flags : UInt32) : Chaining :=
  let h := n.chaining
  let start : Block :=
    #v[h[0], h[1], h[2], h[3], h[4], h[5], h[6], h[7], iv[0], iv[1], iv[2], iv[3],
      n.counter.toUInt32, (n.counter / Nat.pow 2 32).toUInt32, n.length.toUInt32, flags]
  let s := rounds 7 start n.block
  #v[s[0] ^^^ s[8], s[1] ^^^ s[9], s[2] ^^^ s[10], s[3] ^^^ s[11],
    s[4] ^^^ s[12], s[5] ^^^ s[13], s[6] ^^^ s[14], s[7] ^^^ s[15]]

def value (n : Node) : Chaining := n.compress n.flags

def root (n : Node) : Chaining := n.compress (n.flags ||| rootFlag)

end Node

def word (a b c d : UInt8) : UInt32 :=
  a.toUInt32 ||| b.toUInt32 <<< 8 ||| c.toUInt32 <<< 16 ||| d.toUInt32 <<< 24

def block (bytes : List UInt8) : Block :=
  let a := bytes.toArray
  Vector.ofFn fun i =>
    word (a.getD (4 * i) 0) (a.getD (4 * i + 1) 0) (a.getD (4 * i + 2) 0) (a.getD (4 * i + 3) 0)

/-- The last block of a chunk, after at most `n` full ones. -/
def chunkFrom (counter : Nat) : Nat → Chaining → UInt32 → List UInt8 → Node
  | 0, h, flags, bytes => ⟨h, block bytes, counter, bytes.length, flags ||| chunkEnd⟩
  | n + 1, h, flags, bytes =>
    if bytes.length ≤ 64 then ⟨h, block bytes, counter, bytes.length, flags ||| chunkEnd⟩
    else chunkFrom counter n (Node.value ⟨h, block (bytes.take 64), counter, 64, flags⟩) 0
      (bytes.drop 64)

def chunk (counter : Nat) (bytes : List UInt8) : Node := chunkFrom counter 15 iv chunkStart bytes

def parent (l r : Chaining) : Node := ⟨iv, l ++ r, 0, 64, parentFlag⟩

/-- The tree over at most `2 ^ height` chunks, the first of which is number `counter`. Left
subtrees are full. -/
def tree : Nat → Nat → List UInt8 → Node
  | 0, counter, bytes => chunk counter bytes
  | height + 1, counter, bytes =>
    let half := 1024 * Nat.pow 2 height
    if bytes.length ≤ half then tree height counter bytes
    else
      parent (tree height counter (bytes.take half)).value
        (tree height (counter + Nat.pow 2 height) (bytes.drop half)).value

def wordBytes (w : UInt32) : List UInt8 :=
  [w.toUInt8, (w >>> 8).toUInt8, (w >>> 16).toUInt8, (w >>> 24).toUInt8]

def hash (bytes : List UInt8) : List UInt8 :=
  (tree ((bytes.length / 1024).log2 + 1) 0 bytes).root.toList.flatMap wordBytes

end ShaderSplit.Blake3
