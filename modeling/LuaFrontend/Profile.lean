import LuaFrontend.Event

set_option autoImplicit false

namespace LuaFrontend

/-- Counts by name, in the order of the names. -/
abbrev Tally := List (String × Nat)

namespace Tally

/-- One more of this name. -/
def add (name : String) : Tally → Tally
  | [] => [(name, 1)]
  | (other, count) :: rest =>
    if name = other then (other, count + 1) :: rest
    else if name < other then (name, 1) :: (other, count) :: rest
    else (other, count) :: add name rest

def count? (tally : Tally) (name : String) : Option Nat := tally.lookup name

end Tally

/-- What has been counted, and what is still open. -/
structure Profile where
  tokens : Nat := 0
  calls : Tally := []
  /-- The productions entered and not left, the innermost first. -/
  opened : List String := []

namespace Profile

def token (p : Profile) : Profile := { p with tokens := p.tokens + 1 }

def enter (p : Profile) (name : String) : Profile :=
  { p with calls := Tally.add name p.calls, opened := name :: p.opened }

/-- Leaves the innermost production; with none open nothing happens. -/
def exit (p : Profile) : Profile := { p with opened := p.opened.tail }

def observe (p : Profile) : Event → Profile
  | .token _ => p.token
  | .enter production => p.enter production.name
  | .exit _ => p.exit

/-- The profile of a sequence of events. -/
def ofEvents (events : List Event) : Profile := events.foldl observe {}

end Profile
end LuaFrontend
