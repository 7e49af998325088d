import TraceEngine.Segment.Fault

/-!
What an instrumented call was doing. The kind of a segment gives it a name, metrics in which it is summed
up with others, and parameters.
-/
namespace TraceEngine

open Text

structure Datastore where
  product : String
  operation : String
  collection : Option String := none
  host : Option String := none
  portPathOrId : Option String := none
  databaseName : Option String := none

namespace Datastore

def make (product operation : String) : Datastore where
  product := (nonBlank? product).getD "Unknown"
  operation := (nonBlank? operation).getD "other"

def withCollection (d : Datastore) (collection : String) : Datastore :=
  { d with collection := nonBlank? collection }

def withInstance (d : Datastore) (host portPathOrId : String) : Datastore :=
  { d with host := nonBlank? host, portPathOrId := nonBlank? portPathOrId }

def withDatabaseName (d : Datastore) (name : String) : Datastore := { d with databaseName := nonBlank? name }

def operationMetric (d : Datastore) : String := s!"Datastore/operation/{d.product}/{d.operation}"

def metricName (d : Datastore) : String :=
  match d.collection with
  | some collection => s!"Datastore/statement/{d.product}/{collection}/{d.operation}"
  | none => d.operationMetric

def rollups (d : Datastore) : List String :=
  (if d.collection.isSome then [d.operationMetric] else []) ++
  (match d.host with
    | some host => [s!"Datastore/instance/{d.product}/{host}/" ++ d.portPathOrId.getD "unknown"]
    | none => []) ++
  [s!"Datastore/{d.product}/all","Datastore/all"]

def parameters (d : Datastore) : List (String × String) :=
  [("host",d.host),("port_path_or_id",d.portPathOrId),("database_name",d.databaseName)].filterMap
    fun (name,value) => value.map (name,·)

end Datastore

/-- A request to another service. -/
structure ExternalRequest where
  library : String
  uri : Uri
  procedure : String
  hostHeader : Option String := none

namespace ExternalRequest

def make (library uri procedure : String) : Except SegmentFault ExternalRequest := do
  let library ← required "library" library
  let uri ← readRedacted (← required "uri" uri)
  let procedure ← required "procedure" procedure
  return { library, uri, procedure }

/-- The host that was asked for by name, if one was. -/
def host (e : ExternalRequest) : String := e.hostHeader.getD e.uri.hostText

def withHostHeader (e : ExternalRequest) (host : String) : ExternalRequest := { e with hostHeader := nonBlank? host }

def metricName (e : ExternalRequest) : String := s!"External/{e.host}/{e.library}/{e.procedure}"

def rollups (e : ExternalRequest) : List String := ["External/all",s!"External/{e.host}/all"]

def parameters (e : ExternalRequest) : List (String × String) := [("uri",e.uri.text)]

end ExternalRequest

inductive BrokerAction
  | produce
  | consume
  deriving DecidableEq, Repr

def BrokerAction.name : BrokerAction → String
  | produce => "Produce"
  | consume => "Consume"

inductive DestinationKind
  | queue
  | exchange
  | topic
  | temporaryQueue
  | temporaryTopic
  deriving DecidableEq, Repr

def DestinationKind.isTemporary : DestinationKind → Bool
  | temporaryQueue | temporaryTopic => true
  | queue | exchange | topic => false

def DestinationKind.name : DestinationKind → String
  | queue | temporaryQueue => "Queue"
  | exchange => "Exchange"
  | topic | temporaryTopic => "Topic"

structure MessageBroker where
  action : BrokerAction
  library : String
  destinationKind : DestinationKind
  destinationName : String
  parameters : List (String × String) := []

namespace MessageBroker

/-- Only a temporary destination may be without a name. -/
def make (action : BrokerAction) (library : String) (destinationKind : DestinationKind)
    (destinationName : String) : Except SegmentFault MessageBroker := do
  let destinationName ←
    if destinationKind.isTemporary then pure (trimmed destinationName)
    else required "destination_name" destinationName
  let library ← required "library" library
  return { action, library, destinationKind, destinationName }

/-- A later value takes the place of an earlier one of the same name; a blank one is dropped. -/
def withParameter (m : MessageBroker) (name value : String) : MessageBroker :=
  match nonBlank? value with
  | some value => { m with parameters := m.parameters.filter (·.1 != name) ++ [(name,value)] }
  | none => m

def metricName (m : MessageBroker) : String :=
  let destination := if m.destinationKind.isTemporary then "Temp" else "Named/" ++ m.destinationName
  s!"MessageBroker/{m.library}/{m.destinationKind.name}/{m.action.name}/{destination}"

end MessageBroker

inductive SegmentKind
  | generic
  | datastore (d : Datastore)
  | external (e : ExternalRequest)
  | broker (m : MessageBroker)

namespace SegmentKind

def metricName? : SegmentKind → Option String
  | generic => none
  | datastore d => some d.metricName
  | external e => some e.metricName
  | broker m => some m.metricName

def rollups : SegmentKind → List String
  | generic => []
  | datastore d => d.rollups
  | external e => e.rollups
  | broker _ => []

def parameters : SegmentKind → List (String × String)
  | generic => []
  | datastore d => d.parameters
  | external e => e.parameters
  | broker m => m.parameters

end SegmentKind

end TraceEngine
