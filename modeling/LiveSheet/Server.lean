import LiveSheet.Completion.Offer
import LiveSheet.Grammar.Parser
import LiveSheet.Hover
import LiveSheet.Outline
import LiveSheet.Registry
import LiveSheet.RunLoop
import LiveSheet.Settings

/-!
# The language server

Documents are opened, changed and closed by the client; their texts are kept in
buffers, their trees by controllers.  Each question is answered from the last
tree and the live text.
-/

namespace LiveSheet

/-- A message for the log of the client. -/
structure ClientMessage where
  isError : Bool
  text : String
  deriving DecidableEq, Repr

/-- A change of a document as the client sends it: the whole text, or the text of
a range. -/
inductive ContentChange where
  | whole (text : Text)
  | range (start stop : Position) (text : Text)

/-- The text after a change.  A start outside the text counts as its end, and a
stop outside the text as the start; an inverted range is passed over. -/
def ContentChange.apply (t : Text) : ContentChange → Text
  | whole text => text
  | range start stop text =>
    let first := (t.offsetOf start).getD t.length
    let last := (t.offsetOf stop).getD first
    if last < first then t else t.splice first last text

/-- A language server: its workspace, the buffers of the open documents by their
names, the controllers of the same documents, and the settings. -/
structure Server where
  workspace : Workspace
  documents : List (String × Nat)
  registry : Registry
  settings : Settings
  messages : List ClientMessage

namespace Server

def name : String := "sassy-language-server"

def version : String := "0.0.1-experimental.1"

/-- The characters after which a client is to ask for completions. -/
def triggers : List String := ["$", "@"]

/-- The options of controllers under the given settings. -/
def options (s : Settings) : ControllerOptions :=
  ⟨"client", s.diagnostics.dumpTree, s.diagnostics.logTimings⟩

def create (s : Settings) : Server := ⟨.empty, [], .create (options s), s, []⟩

/-- The messages that effects send to the client: one for each failure. -/
def messagesOf (effects : List Effect) : List ClientMessage :=
  effects.filterMap fun e =>
    match e with
    | .reported _ failure => some ⟨true, failure.announcement⟩
    | _ => none

/-- Takes settings from the client.  They hold for documents opened later. -/
def configure (s : Server) (v : SettingValue) : Server :=
  let settings := s.settings.apply v
  { s with settings := settings, registry := s.registry.setOptions (options settings) }

def handshake (s : Server) (v : Option SettingValue) : Server :=
  v.elim s s.configure

def ready (s : Server) : Server :=
  { s with messages := s.messages ++ [⟨false, "initialized!"⟩] }

def pathOf (uri : String) : Option String :=
  let scheme := "file://".toList
  if scheme.isPrefixOf uri.toList then some (String.ofList (uri.toList.drop scheme.length))
  else none

/-- Opens a document.  One that is open gets a new text. -/
def didOpen (s : Server) (uri : String) (text : Text) : Server :=
  match s.documents.lookup uri with
  | some buffer => { s with workspace := s.workspace.edit buffer fun _ => text }
  | none =>
    let (buffer, workspace) := s.workspace.createBuffer 0 (pathOf uri) text
    let attached := s.registry.getOrAttach workspace uri fun w => (buffer, w)
    { s with
      workspace := attached.workspace
      documents := s.documents ++ [(uri, buffer)]
      registry := attached.registry
      messages := s.messages ++ messagesOf attached.effects }

/-- Changes an open document.  All changes together make one version. -/
def didChange (s : Server) (uri : String) (changes : List ContentChange) : Server :=
  match s.documents.lookup uri with
  | none => s
  | some buffer =>
    { s with workspace := s.workspace.edit buffer fun t => changes.foldl ContentChange.apply t }

def didClose (s : Server) (uri : String) : Server :=
  let (registry, workspace) := s.registry.close s.workspace uri
  { s with
    workspace := workspace
    documents := s.documents.filter fun d => d.1 != uri
    registry := registry }

def shutdown (s : Server) : Server :=
  let (registry, workspace) := s.registry.shutdown s.workspace
  { s with workspace := workspace, documents := [], registry := registry }

def treeFor? (s : Server) (uri : String) : Option Tree :=
  (s.registry.get? uri).bind s.workspace.tree?

/-- What the editor shows of a document. -/
def liveSnapshot? (s : Server) (uri : String) : Option Snapshot :=
  (s.documents.lookup uri).bind s.workspace.live?

/-- The completions offered at a place, unless completion is switched off. -/
def completion (s : Server) (uri : String) (place : Position) : Option (List Offer) :=
  if s.settings.completion.enabled then do
    let tree ← s.treeFor? uri
    let live ← s.liveSnapshot? uri
    return Offer.all tree live.text place s.settings.completion
  else none

/-- What is known about the word at a place, and the range of the word. -/
def hover (s : Server) (uri : String) (place : Position) :
    Option (Completion × Option Range) := do
  let tree ← s.treeFor? uri
  let live ← s.liveSnapshot? uri
  let offset ← live.text.offsetOf place
  let found ← Hover.declarationAt tree live.text offset
  return (found, live.text.rangeOf found.word)

def documentSymbols (s : Server) (uri : String) : Option (List Symbol) :=
  (s.treeFor? uri).map Tree.outline

/-- The parser of the server.  Nobody asks the server how long parses took. -/
def parser : Parser := Grammar.parser Grammar.defaultInterval fun _ => .zero

/-- One thing happens in the background, in the session of a controller. -/
def background (s : Server) (controller : Nat) (a : Session.Action) : Server :=
  let (workspace, effects) := s.workspace.act parser controller a
  { s with workspace := workspace, messages := s.messages ++ messagesOf effects }

/-- The order in which the background work gets its turns. -/
def runLoop : RunLoop := ⟨parser, fun _ => false⟩

/-- Lets everything in the background run to its end. -/
def settle (s : Server) : Server :=
  let (workspace, effects) := runLoop.settle s.workspace []
  { s with
    workspace := workspace
    messages := s.messages ++ messagesOf (effects.map Prod.snd) }

end Server
end LiveSheet
