/-
When two query trees are the same.

Spans count.  Floats are compared as numbers, so a tree that holds a not-a-number
is not even the same as itself.
-/
import QueryCompiler.Query.Node

namespace QueryCompiler.Node

mutual

/-- Whether two trees are the same. -/
def same : Node → Node → Bool
  | literal a s, literal b t => a.sameValue b && s == t
  | list a s, list b t => sameList a b && s == t
  | object a s, object b t => sameFields a b && s == t
  | ident a s, ident b t => a == b && s == t
  | param a s, param b t => a == b && s == t
  | current s, current t => s == t
  | member a n s, member b m t => same a b && n == m && s == t
  | index a i s, index b j t => same a b && same i j && s == t
  | call a xs s, call b ys t => same a b && sameList xs ys && s == t
  | unary o a s, unary p b t => o == p && same a b && s == t
  | binary o a c s, binary p b d t => o == p && same a b && same c d && s == t
  | logical o a c s, logical p b d t => o == p && same a b && same c d && s == t
  | ternary a c e s, ternary b d f t => same a b && same c d && same e f && s == t
  | group a s, group b t => same a b && s == t
  | lambda n a s, lambda m b t => n == m && same a b && s == t
  | transform m a c s, transform n b d t => m == n && same a b && same c d && s == t
  | block a s, block b t => sameList a b && s == t
  | varDecl n a s, varDecl m b t => n == m && same a b && s == t
  | assign n a s, assign m b t => n == m && same a b && s == t
  | run a s, run b t => same a b && s == t
  | hint n a s, hint m b t => n == m && a.sameValue b && s == t
  | importAs k p n s, importAs l q m t => k == l && p == q && n == m && s == t
  | ifChain a c s, ifChain b d t => sameArms a b && sameOption c d && s == t
  | whileLoop a c s, whileLoop b d t => same a b && same c d && s == t
  | forEach n a c s, forEach m b d t => n == m && same a b && same c d && s == t
  | breakLoop s, breakLoop t => s == t
  | continueLoop s, continueLoop t => s == t
  | tryCatch a n c s, tryCatch b m d t => same a b && n == m && same c d && s == t
  | returnWith c a s, returnWith d b t => c == d && sameOption a b && s == t
  | exitWith c a s, exitWith d b t => c == d && sameOption a b && s == t
  | throwWith c a s, throwWith d b t => c == d && same a b && s == t
  | _, _ => false

/-- Whether two lists hold the same trees in the same order. -/
def sameList : List Node → List Node → Bool
  | [], [] => true
  | a :: as, b :: bs => same a b && sameList as bs
  | _, _ => false

/-- Whether two objects have the same fields in the same order. -/
def sameFields : List (String × Node) → List (String × Node) → Bool
  | [], [] => true
  | (k, a) :: as, (l, b) :: bs => k == l && same a b && sameFields as bs
  | _, _ => false

/-- Whether two conditionals have the same arms in the same order. -/
def sameArms : List (Node × Node) → List (Node × Node) → Bool
  | [], [] => true
  | (a, c) :: as, (b, d) :: bs => same a b && same c d && sameArms as bs
  | _, _ => false

/-- Whether two trees that may be absent are both absent or both there and the same. -/
def sameOption : Option Node → Option Node → Bool
  | none, none => true
  | some a, some b => same a b
  | _, _ => false

end

end QueryCompiler.Node
