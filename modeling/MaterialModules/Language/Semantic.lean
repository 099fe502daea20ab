set_option autoImplicit false

namespace MaterialModules

inductive Operator where
  | positive | negative | logicalNot | bitwiseComplement
  | multiply | divide | modulo | plus | minus | shiftLeft | shiftRight
  | less | lessOrEqual | greater | greaterOrEqual | equal | notEqual
  | bitwiseAnd | bitwiseXor | bitwiseOr | logicalAnd | logicalOr
  /-- The choice `c ? a : b`. -/
  | ternary
  /-- The member selection `s.m`. -/
  | select
  deriving DecidableEq, Repr

namespace Operator

def all : List Operator :=
  [positive, negative, logicalNot, bitwiseComplement, multiply, divide, modulo, plus, minus, shiftLeft,
    shiftRight, less, lessOrEqual, greater, greaterOrEqual, equal, notEqual, bitwiseAnd, bitwiseXor,
    bitwiseOr, logicalAnd, logicalOr, ternary, select]

def name : Operator → String
  | positive => "positive"
  | negative => "negative"
  | logicalNot => "logical_not"
  | bitwiseComplement => "bitwise_complement"
  | multiply => "multiply"
  | divide => "divide"
  | modulo => "modulo"
  | plus => "plus"
  | minus => "minus"
  | shiftLeft => "shift_left"
  | shiftRight => "shift_right"
  | less => "less"
  | lessOrEqual => "less_or_equal"
  | greater => "greater"
  | greaterOrEqual => "greater_or_equal"
  | equal => "equal"
  | notEqual => "not_equal"
  | bitwiseAnd => "bitwise_and"
  | bitwiseXor => "bitwise_xor"
  | bitwiseOr => "bitwise_or"
  | logicalAnd => "logical_and"
  | logicalOr => "logical_or"
  | ternary => "ternary"
  | select => "select"

end Operator

inductive Semantic where
  | ordinary
  | operator (op : Operator)
  | fieldAccess | arrayConstructor | indexAccess | arrayLength
  | setObjectId | setTransforms
  | constructor
  | intrinsic
  deriving DecidableEq, Repr, Inhabited

namespace Semantic

def all : List Semantic :=
  [ordinary, fieldAccess, arrayConstructor, indexAccess, arrayLength, setObjectId, setTransforms,
    constructor, intrinsic] ++ Operator.all.map operator

def name : Semantic → String
  | ordinary => "unknown"
  | operator op => "op:" ++ op.name
  | fieldAccess => "field_access"
  | arrayConstructor => "array_constructor"
  | indexAccess => "index_access"
  | arrayLength => "array_length"
  | setObjectId => "set_object_id"
  | setTransforms => "set_transforms"
  | constructor => "constructor"
  | intrinsic => "intrinsic"

def isUniformBuiltin : Semantic → Bool
  | fieldAccess | arrayConstructor | indexAccess | arrayLength | setObjectId | setTransforms => true
  | operator op => op ≠ .select
  | _ => false

def isTernary (s : Semantic) : Bool := s = operator .ternary

end Semantic

end MaterialModules
