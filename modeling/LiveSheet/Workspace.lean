import LiveSheet.Session

/-!
# Workspaces

Many buffers and controllers side by side.  What happens in the session of one
controller touches that controller and its buffer only.
-/

namespace LiveSheet

/-- All buffers and controllers ever made.  Each is known by its place. -/
structure Workspace where
  buffers : List Buffer
  controllers : List Controller

namespace Workspace

def empty : Workspace := ⟨[], []⟩

def createBuffer (w : Workspace) (version : Nat) (path : Option String) (text : Text) :
    Nat × Workspace :=
  let id := w.buffers.length
  (id, { w with buffers := w.buffers ++ [.create id version path text] })

def edit (w : Workspace) (buffer : Nat) (f : Text → Text) : Workspace :=
  { w with buffers := w.buffers.modify buffer (Buffer.edit · f) }

def live? (w : Workspace) (buffer : Nat) : Option Snapshot := w.buffers[buffer]?.map Buffer.live

/-- Attaches a controller to a buffer.  The controller is known by the number of
those before it. -/
def attach (w : Workspace) (buffer : Nat) (options : ControllerOptions) :
    Workspace × List Effect :=
  match w.buffers[buffer]? with
  | none => (w, [])
  | some b =>
    let (s, effects) := Session.attach b options
    (⟨w.buffers.set buffer s.buffer, w.controllers ++ [s.controller]⟩, effects)

def session? (w : Workspace) (controller : Nat) : Option Session := do
  let c ← w.controllers[controller]?
  let b ← w.buffers[c.buffer]?
  return ⟨b, c⟩

def act (parser : Parser) (w : Workspace) (controller : Nat) (a : Session.Action) :
    Workspace × List Effect :=
  match w.session? controller with
  | none => (w, [])
  | some s =>
    let (next, effects) := s.act parser a
    (⟨w.buffers.set next.controller.buffer next.buffer,
      w.controllers.set controller next.controller⟩, effects)

def close (w : Workspace) (controller : Nat) : Workspace :=
  { w with controllers := w.controllers.modify controller Controller.close }

def controller? (w : Workspace) (controller : Nat) : Option Controller :=
  w.controllers[controller]?

def tree? (w : Workspace) (controller : Nat) : Option Tree :=
  (w.controller? controller).map Controller.tree

end Workspace
end LiveSheet
