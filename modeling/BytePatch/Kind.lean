/-!
Byte strings and the kinds of edit a script is made of, with the names, symbols and table
positions that printed forms use.
-/
namespace BytePatch

abbrev Bytes := List UInt8

/-- `stop` never labels an edit: it stands for both ends of a script, so that a table of
transition prices can also price the first and the last edit. -/
inductive Kind where
  | stop
  | delete
  | insert
  | copy
deriving DecidableEq

namespace Kind

def all : List Kind := [.stop, .delete, .insert, .copy]

/-- Row or column of this kind in a table of transition prices. -/
def index : Kind → Nat
  | .stop => 0
  | .delete => 1
  | .insert => 2
  | .copy => 3

/-- The kind that takes the effect of this one back: deleting and inserting swap. -/
def inverse : Kind → Kind
  | .delete => .insert
  | .insert => .delete
  | kind => kind

def symbol : Kind → Char
  | .stop => ';'
  | .delete => '-'
  | .insert => '+'
  | .copy => '>'

def name : Kind → String
  | .stop => "Stop"
  | .delete => "Delete"
  | .insert => "Insert"
  | .copy => "Copy"

def ofName? (text : String) : Option Kind := all.find? (·.name = text)

theorem inverse_inverse (kind : Kind) : kind.inverse.inverse = kind := by
  cases kind <;> rfl

theorem ofName?_name (kind : Kind) : ofName? kind.name = some kind := by
  cases kind <;> decide

end Kind

end BytePatch
