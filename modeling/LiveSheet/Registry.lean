import LiveSheet.Workspace

/-!
# Registries

At most one open controller for each name.
-/

namespace LiveSheet

/-- The controllers of the open documents, at most one for each name, and the
options for controllers that are attached from now on. -/
structure Registry where
  options : ControllerOptions
  controllers : List (String × Nat)

namespace Registry

def create (options : ControllerOptions) : Registry := ⟨options, []⟩

def get? (r : Registry) (name : String) : Option Nat := r.controllers.lookup name

def contains (r : Registry) (name : String) : Bool := (r.get? name).isSome

def size (r : Registry) : Nat := r.controllers.length

/-- A registry in a workspace, a controller of it, and what attaching it brought
about. -/
structure Attachment where
  registry : Registry
  workspace : Workspace
  controller : Nat
  created : Bool
  effects : List Effect

/-- The controller registered under a name.  If there is none, `makeBuffer` is
asked for a buffer and a controller is attached to it. -/
def getOrAttach (r : Registry) (w : Workspace) (name : String)
    (makeBuffer : Workspace → Nat × Workspace) : Attachment :=
  match r.get? name with
  | some c => ⟨r, w, c, false, []⟩
  | none =>
    let (buffer, w) := makeBuffer w
    let c := w.controllers.length
    let (w, effects) := w.attach buffer r.options
    ⟨{ r with controllers := r.controllers ++ [(name, c)] }, w, c, true, effects⟩

def close (r : Registry) (w : Workspace) (name : String) : Registry × Workspace :=
  match r.get? name with
  | none => (r, w)
  | some c =>
    ({ r with controllers := r.controllers.filter fun e => e.1 != name }, w.close c)

def shutdown (r : Registry) (w : Workspace) : Registry × Workspace :=
  (r.controllers.map Prod.fst).foldl (fun (r, w) name => r.close w name) (r, w)

/-- Chooses the options for later attachments. -/
def setOptions (r : Registry) (options : ControllerOptions) : Registry :=
  { r with options := options }

end Registry
end LiveSheet
