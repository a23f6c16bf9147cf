import CycleCheck.Propagation.Value

/-!
Evaluation of terms in a state. Connectives, equality and choice need not know all their
arguments; every other operator is unknown as long as one argument is.
-/

namespace CycleCheck.Propagation

/-- Why propagation gives up on a formula. -/
inductive PropagationError where
  | undetermined (count : Nat) (quote : String)
  | unsupported (what : String)
  | undeclared (name : String)
  | redeclared (name : String)
  | mismatch (name : String)
deriving DecidableEq

def PropagationError.fault : PropagationError → Fault
  | .undetermined count quote =>
      .patterned "propagate: undetermined (%d assertions unresolved, first is %s)"
        [.int count, .text quote]
  | .unsupported what => .patterned "propagate: unsupported (%v)" [.text what]
  | .undeclared name => .patterned "propagate: undeclared symbol (%s)" [.text name]
  | .redeclared name => .patterned "propagate: symbol declared twice (%s)" [.text name]
  | .mismatch name => .patterned "propagate: sort mismatch in definition of %s" [.text name]

/-- The value of a constant of at most 64 bits. -/
def constant (base : Nat) (digits : String) (width : Nat) : Except PropagationError Value :=
  if width > 64 then .error (.unsupported "constant wider than 64 bits")
  else .ok (.ofWord (Text.positional base digits.toList).toUInt64 (Int64.ofNat width))

/-- The value of a declared symbol. -/
def State.symbol (s : State) (name : String) : Except PropagationError Value :=
  match s.sorts[name]? with
  | none => .error (.undeclared name)
  | some (.array _ _) =>
      match s.arrays[name]? with
      | some m => .ok (.array m)
      | none => .ok .unknown
  | some (.bits width) =>
      match s.values[name]? with
      | some v => .ok (.ofWord v width)
      | none => .ok .unknown

/-- False as soon as one value is false, true if all are true. -/
def conjunction (vals : List Value) : Value :=
  if vals.any (fun v => v.known && !v.truth) then .bool false
  else if vals.all Value.known then .bool true else .unknown

/-- True as soon as one value is true, false if all are false. -/
def disjunction (vals : List Value) : Value :=
  if vals.any (fun v => v.known && v.truth) then .bool true
  else if vals.all Value.known then .bool false else .unknown

/-- Whether each value equals the next one. -/
def chainEqual : List Value → Tri
  | a :: b :: rest =>
      match a.equal b, chainEqual (b :: rest) with
      | .no, _ => .no
      | _, .no => .no
      | .yes, r => r
      | .maybe, _ => .maybe
  | _ => .yes

/-- Whether no value equals a later one. -/
def pairwiseDistinct : List Value → Tri
  | [] => .yes
  | a :: rest =>
      if rest.any (fun b => a.equal b == .yes) then .no
      else match pairwiseDistinct rest with
        | .no => .no
        | .maybe => .maybe
        | .yes => if rest.any (fun b => a.equal b == .maybe) then .maybe else .yes

/-- An index as a signed integer. -/
def indexInt (n : Numeral) : Int64 := n.value.toInt64

/-- The operators that need all their arguments. -/
def State.strict (s : State) (op : Op) (indices : List Numeral) (vals : List Value) :
    Except PropagationError Value :=
  match op, indices, vals with
  | .not, _, [a] => .ok (.bool (!a.truth))
  | .xor, _, vs => .ok (.bool (vs.foldl (fun b v => b != v.truth) false))
  | .bvadd, _, [a, b] => .ok (.ofWord (a.word + b.word) a.width)
  | .bvsub, _, [a, b] => .ok (.ofWord (a.word - b.word) a.width)
  | .bvand, _, [a, b] => .ok (.ofWord (a.word &&& b.word) a.width)
  | .bvor, _, [a, b] => .ok (.ofWord (a.word ||| b.word) a.width)
  | .bvxor, _, [a, b] => .ok (.ofWord (a.word ^^^ b.word) a.width)
  | .bvnot, _, [a] => .ok (.ofWord (~~~ a.word) a.width)
  | .bvshl, _, [a, b] =>
      if b.word ≥ a.width.toUInt64 then .ok (.ofWord 0 a.width)
      else .ok (.ofWord (shiftLeft a.word b.word) a.width)
  | .bvlshr, _, [a, b] =>
      if b.word ≥ a.width.toUInt64 then .ok (.ofWord 0 a.width)
      else .ok (.ofWord (shiftRight a.word b.word) a.width)
  | .bvult, _, [a, b] => .ok (.bool (a.word < b.word))
  | .bvule, _, [a, b] => .ok (.bool (a.word ≤ b.word))
  | .bvugt, _, [a, b] => .ok (.bool (a.word > b.word))
  | .bvuge, _, [a, b] => .ok (.bool (a.word ≥ b.word))
  | .concat, _, [a, b] =>
      let w := a.width + b.width
      if w > 64 then .error (.unsupported "concatenation wider than 64 bits")
      else .ok (.ofWord (shiftLeft a.word b.width.toUInt64 ||| b.word) w)
  | .extract, [hi, lo], [a] =>
      .ok (.ofWord (shiftRight a.word lo.value) (indexInt hi - indexInt lo + 1))
  | .zeroExtend, [n], [a] =>
      let w := a.width + indexInt n
      if w > 64 then .error (.unsupported "extension wider than 64 bits")
      else .ok (.ofWord a.word w)
  | .select, _, [a, i] =>
      match a with
      | .array m =>
          match s.lookup m i.word with
          | some v => .ok (.ofWord v m.dataWidth)
          | none => .ok .unknown
      | _ => .error (.unsupported "select from a non-array")
  | .store, _, [a, i, v] =>
      match a with
      | .array m => .ok (.array (m.store i.word v.word))
      | _ => .error (.unsupported "store to a non-array")
  | op, _, _ => .error (.unsupported op.text)

/-- An operator applied to values. -/
def State.applyOp (s : State) (op : Op) (indices : List Numeral) (vals : List Value) :
    Except PropagationError Value :=
  match op with
  | .and => .ok (conjunction vals)
  | .or => .ok (disjunction vals)
  | .eq => .ok (chainEqual vals).value
  | .distinct => .ok (pairwiseDistinct vals).value
  | op => if vals.all Value.known then s.strict op indices vals else .ok .unknown

mutual

/-- The value of a term. -/
def State.eval (s : State) : Term → Except PropagationError Value
  | .bool b => .ok (.bool b)
  | .binary digits => constant 2 digits digits.length
  | .hex digits => constant 16 digits (digits.length * 4)
  | .symbol x => s.symbol x.name
  | .numeral n => .error (.unsupported n.text)
  | .app .implies _ [a, c] => do
      let va ← s.eval a
      if va.known && !va.truth then pure (.bool true)
      else
        let vc ← s.eval c
        if vc.known && vc.truth then pure (.bool true)
        else if va.known && vc.known then pure (.bool false)
        else pure .unknown
  | .app .ite _ [c, a, b] => do
      let vc ← s.eval c
      if vc.known then
        if vc.truth then s.eval a else s.eval b
      else
        let va ← s.eval a
        let vb ← s.eval b
        if va.equal vb == .yes then pure va else pure .unknown
  | .app op indices args => do
      let vals ← s.evalAll args
      s.applyOp op indices vals

/-- The values of terms, from left to right. -/
def State.evalAll (s : State) : List Term → Except PropagationError (List Value)
  | [] => .ok []
  | t :: rest => do
      let v ← s.eval t
      let vs ← s.evalAll rest
      pure (v :: vs)

end

end CycleCheck.Propagation
