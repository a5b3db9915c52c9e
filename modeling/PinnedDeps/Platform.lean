import PinnedDeps.Dict

/-! The platform table: values for variables that a DEPS file does not define itself. The built-in
one describes a Linux host with an x64 processor, so that the result does not depend on where the
program runs. -/

namespace PinnedDeps

structure Platform where
  values : Dict String

namespace Platform

def empty : Platform := ⟨[]⟩

/-- Adds or replaces a value. -/
def define (p : Platform) (name value : String) : Platform := ⟨p.values.insert name value⟩

def builtIn : Platform := (empty.define "host_cpu" "x64").define "host_os" "linux"

/-- The value of a name that the table defines. -/
def get? (p : Platform) (name : String) : Option String := p.values.get? name

theorem get?_empty (name : String) : empty.get? name = none := rfl

theorem get?_define (p : Platform) (name value x : String) :
    (p.define name value).get? x = if x = name then some value else p.get? x :=
  Dict.get?_insert p.values name value x

end Platform

end PinnedDeps
