import Redial.Session.StreamSession

/-!
# Sessions that are described by settings

A draft of a session has settings where the session has a configuration. The settings are applied
first; if one of them is refused, the session ends before anything has been dialled.
-/

namespace Redial.StreamSession

/-- What a session is described by. -/
structure Draft where
  /-- Where the stream is connected to. -/
  destination : Address
  /-- The settings of its configuration. -/
  settings : List Setting
  /-- The script of the offsets, if they are not drawn. -/
  script : Option OffsetScript
  /-- Where the draws come from if the settings have no seed. -/
  entropy : StreamKey
  /-- The clock before the dial. -/
  clock : Instant
  /-- The scripts of the dials. -/
  dials : List (Gated DialScript)

/-- How a session that is described by a draft begins. -/
inductive Beginning where
  /-- A setting was refused. -/
  | refused (refusal : Refusal) (world : World)
  /-- The settings were applied, and the destination was dialled. -/
  | dialled (opening : Opening)

namespace Draft

/-- How the hello is cut: as the script says, or else as the configuration does. -/
def strategy (d : Draft) (c : Config) : SplitStrategy :=
  match d.script with
  | some script => .scripted script
  | none => c.strategy d.entropy

/-- The session that is begun with a configuration. -/
def setup (d : Draft) (c : Config) : Setup where
  destination := d.destination
  config := c
  strategy := d.strategy c
  clock := d.clock
  dials := d.dials

/-- Applies the settings, and then opens the stream. -/
def beginning (d : Draft) : Beginning :=
  match Config.ofSettings d.settings with
  | .error refusal => .refused refusal (.fresh d.clock d.dials)
  | .ok config => .dialled (d.setup config).opening

end Draft

end Redial.StreamSession
