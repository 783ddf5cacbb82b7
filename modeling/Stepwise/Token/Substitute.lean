import Stepwise.Token.Members
/-!
# Substitution in source text

Every member of a tuple that equals a key is replaced, at any depth. The replacement is textual:
a nested tuple that binds the key for itself is no exception. Members are set apart
by single spaces afterwards and every tuple keeps its bracket style.
-/

namespace Stepwise.Token

/-- The text with `replacement` for every member, at any depth, that reads `key`. -/
def substitute (key replacement text : String) : Except ReadError String :=
  if trim text = key then .ok replacement
  else
    match Bracket.leading? (trim text) with
    | none => .ok (trim text)
    | some style =>
      match h : members text with
      | .error e => .error e
      | .ok ms =>
        let replaced := ms.attach.mapM fun ⟨m, hm⟩ =>
          have := length_lt_of_mem_members h hm
          substitute key replacement m
        replaced.map fun ms => style.enclose (" ".intercalate ms)
termination_by text.toList.length

end Stepwise.Token
