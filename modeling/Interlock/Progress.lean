/-! What a run is doing at the moment, for messages about crashes. Activities nest: whoever starts
one keeps the activity before it, and goes back to that when leaving. -/

namespace Interlock

inductive Phase where
  | discovery
  | parsing
  | modelResolution
  | graphBuilding
  | detection
  | reporting
  deriving DecidableEq, Repr

def Phase.name : Phase → String
  | discovery => "discovery"
  | parsing => "parsing"
  | modelResolution => "model_resolution"
  | graphBuilding => "graph_building"
  | detection => "detection"
  | reporting => "reporting"

structure Activity where
  phase : Option Phase := none
  file : Option String := none
  deriving DecidableEq, Repr

structure Progress where
  current : Activity := {}
  /-- The activities to go back to, the oldest first. -/
  saved : List Activity := []
  processed : UInt64 := 0
  total : UInt64 := 0
  deriving DecidableEq, Repr

namespace Progress

def start (p : Progress) (activity : Activity) : Progress :=
  { p with current := activity, saved := p.saved ++ [p.current] }

def enterPhase (p : Progress) (phase : Phase) : Progress :=
  p.start { p.current with phase := some phase }

def openFile (p : Progress) (file : String) : Progress :=
  p.start { p.current with file := some file }

/-- Goes back to a saved activity, which need not be the last one. -/
def leave (p : Progress) (index : Nat) : Progress :=
  match p.saved[index]? with
  | some activity => { p with current := activity, saved := p.saved.eraseIdx index }
  | none => p

def setCounts (p : Progress) (processed total : UInt64) : Progress := { p with processed, total }

/-- Counts one more file. -/
def advance (p : Progress) : Progress := { p with processed := p.processed + 1 }

/-- Leaving the activity that was started last restores the state before it. -/
theorem leave_start (p : Progress) (activity : Activity) :
    (p.start activity).leave p.saved.length = p := by
  simp [start, leave, List.eraseIdx_append_of_length_le]

end Progress

/-- The level of messages for a count of requests for more. -/
def logLevel : UInt8 → String
  | 0 => "warn"
  | 1 => "info"
  | 2 => "debug"
  | _ => "trace"

end Interlock
