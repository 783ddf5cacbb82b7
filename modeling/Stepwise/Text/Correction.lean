import Stepwise.Text.Cluster
/-!
# Corrected lines

A line of input may hold backspaces. Each takes back the cluster in front of it that is still
there, as if it had not been typed.
-/

namespace Stepwise

/-- The character that takes back what was typed before it. -/
def backspace : Char := '\x08'

/-- A line as far as it has been typed. -/
structure TypedLine where
  /-- The characters that are left, backwards. -/
  chars : List Char
  /-- The lengths in bytes of the clusters that are left, backwards. A length is kept in one byte,
  so that of a very long cluster only the excess over a multiple of 256 is taken back. -/
  sizes : List UInt8

/-- How many bytes a row of characters takes up. -/
def byteLength : List Char → Nat
  | [] => 0
  | c :: rest => c.utf8Size + byteLength rest

/-- Drops characters from the front as long as they fit into `n` bytes. -/
def dropBytes (n : Nat) : List Char → List Char
  | [] => []
  | c :: rest => if n = 0 ∨ n < c.utf8Size then c :: rest else dropBytes (n - c.utf8Size) rest

namespace TypedLine

/-- Nothing has been typed. -/
def empty : TypedLine := ⟨[], []⟩

/-- The line after one more cluster, or one more backspace. -/
def type (line : TypedLine) (cluster : List Char) : TypedLine :=
  if cluster = [backspace] then
    match line.sizes with
    | [] => line
    | size :: sizes => ⟨dropBytes size.toNat line.chars, sizes⟩
  else ⟨cluster.reverse ++ line.chars, (byteLength cluster).toUInt8 :: line.sizes⟩

end TypedLine

/-- The line that its backspaces leave. -/
def corrected (line : String) : String :=
  String.ofList ((clusters line.toList).foldl TypedLine.type .empty).chars.reverse

end Stepwise
