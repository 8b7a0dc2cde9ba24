import FilterLang.Tree
import Std.Data.TreeSet

/-!
# Vocabularies

* `Program.addNames` : adds the function names of a program to a set;
* `Program.addValues` : adds the values of its literals to a set.

The sets are ordered by code points.
-/

namespace FilterLang

open Std (TreeSet)

mutual

def Call.addNames (names : TreeSet String) : Call → TreeSet String
  | ⟨name, args⟩ => Argument.addNames (names.insert name) args

def Argument.addNames (names : TreeSet String) : List Argument → TreeSet String
  | [] => names
  | .literal _ :: args => Argument.addNames names args
  | .call c :: args => Argument.addNames (c.addNames names) args

end

mutual

def Call.addValues (values : TreeSet String) : Call → TreeSet String
  | ⟨_, args⟩ => Argument.addValues values args

def Argument.addValues (values : TreeSet String) : List Argument → TreeSet String
  | [] => values
  | .literal lit :: args => Argument.addValues (values.insert lit.value) args
  | .call c :: args => Argument.addValues (c.addValues values) args

end

def Program.addNames (names : TreeSet String) (p : Program) : TreeSet String :=
  p.expression.addNames names

def Program.addValues (values : TreeSet String) (p : Program) : TreeSet String :=
  p.expression.addValues values

end FilterLang
