import Ekapkgs.Text

/-!
# The manifest of a directory's environment

`config.rs`: the packages and flake dev shells that `.ekapkgs-env.toml` lists.
-/

namespace Ekapkgs

structure EnvPackageEntry where
  name : String
  flake : Option String
  deriving DecidableEq

structure EnvFlakeEntry where
  ref : String
  devshell : String
  rev : Option String
  inputs : List (String × String)
  deriving DecidableEq

structure EnvManifest where
  version : Nat
  flake : String
  packages : List EnvPackageEntry
  flakes : List EnvFlakeEntry
  deriving DecidableEq

namespace EnvManifest

def default : EnvManifest := ⟨1, "nixpkgs", [], []⟩

/-- Unless it is already present. -/
def add (m : EnvManifest) (entry : EnvPackageEntry) : Option EnvManifest :=
  if m.packages.any fun p => p.name = entry.name then none else some { m with packages := m.packages ++ [entry] }

def remove (m : EnvManifest) (name : String) : EnvManifest := { m with packages := m.packages.filter fun p => p.name ≠ name }

/-- Unless it is already present. -/
def addFlake (m : EnvManifest) (entry : EnvFlakeEntry) : Option EnvManifest :=
  if m.flakes.any fun f => f.ref = entry.ref then none else some { m with flakes := m.flakes ++ [entry] }

/-- `None` when it was not present. -/
def removeFlake (m : EnvManifest) (ref : String) : Option EnvManifest :=
  if m.flakes.any fun f => f.ref = ref then some { m with flakes := m.flakes.filter fun f => f.ref ≠ ref } else none

end EnvManifest

end Ekapkgs
