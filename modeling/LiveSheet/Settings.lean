/-!
# Settings

What a client may choose.  Names that mean nothing and values of the wrong kind
leave a setting as it is.
-/

namespace LiveSheet

/-- A value that a client sends as a setting: a switch, a group of named values,
or anything else, which no setting takes. -/
inductive SettingValue where
  | switch (on : Bool)
  | group (fields : List (String × SettingValue))
  | other
  deriving Inhabited

namespace SettingValue

def field? (v : SettingValue) (name : String) : Option SettingValue :=
  match v with
  | group fields => (fields.find? fun f => f.1 == name).map Prod.snd
  | _ => none

def switch? (v : SettingValue) (name : String) : Option Bool :=
  match v.field? name with
  | some (switch on) => some on
  | _ => none

end SettingValue

structure CompletionSettings where
  enabled : Bool
  includeDescriptions : Bool
  deriving DecidableEq, Repr

structure DiagnosticSettings where
  dumpTree : Bool
  logTimings : Bool
  deriving DecidableEq, Repr

structure Settings where
  completion : CompletionSettings
  diagnostics : DiagnosticSettings
  deriving DecidableEq, Repr

def CompletionSettings.standard : CompletionSettings := ⟨true, true⟩

def DiagnosticSettings.standard : DiagnosticSettings := ⟨false, true⟩

/-- The settings of a client that chooses nothing. -/
def Settings.standard : Settings := ⟨.standard, .standard⟩

/-- Completion may be switched on and off by one switch, or chosen in detail. -/
def CompletionSettings.apply (s : CompletionSettings) : SettingValue → CompletionSettings
  | .switch on => { s with enabled := on }
  | v =>
    { enabled := (v.switch? "enabled").getD s.enabled
      includeDescriptions := (v.switch? "includeDescriptions").getD s.includeDescriptions }

def DiagnosticSettings.apply (s : DiagnosticSettings) (v : SettingValue) : DiagnosticSettings :=
  { dumpTree := (v.switch? "dumpTree").getD s.dumpTree
    logTimings := (v.switch? "logTimings").getD s.logTimings }

/-- The name under which a client may wrap the settings of this server. -/
def Settings.root : String := "sassyLanguageServer"

/-- The settings after a client has sent some.  Unknown names and values of the
wrong form change nothing. -/
def Settings.apply (s : Settings) (v : SettingValue) : Settings :=
  let v := (v.field? root).getD v
  { completion := ((v.field? "completion").map s.completion.apply).getD s.completion
    diagnostics := ((v.field? "diagnostics").map s.diagnostics.apply).getD s.diagnostics }

end LiveSheet
