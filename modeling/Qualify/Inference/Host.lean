namespace Qualify

-- What a run of an external solver leaves behind.
structure RunOutput where
  stdout : List UInt8
  stderr : List UInt8
  status : Nat
deriving DecidableEq, Repr

def RunOutput.silent : RunOutput :=
  ⟨[], [], 0⟩

-- One run: the arguments before the script, and the script.
structure Run where
  arguments : List String
  script : String
deriving DecidableEq, Repr

-- The world around a solver: which commands can be started and which paths written, what the clock
-- will show, what the next runs will leave behind, and the files and runs so far.
structure Host where
  canStart : String → Bool
  canWrite : String → Bool
  clock : List Nat
  outputs : List RunOutput
  files : List (String × String)
  runs : List Run

namespace Host

def content? (host : Host) (path : String) : Option String :=
  host.files.lookup path

def write (host : Host) (path text : String) : Host :=
  if host.canWrite path then { host with files := (path, text) :: host.files } else host

-- Writes to a path if there is one. Failures are ignored.
def writeTo (host : Host) (path : Option String) (text : String) : Host :=
  match path with
  | some path => host.write path text
  | none => host

def appendTo (host : Host) (path : Option String) (text : String) : Host :=
  match path with
  | some path => host.write path ((host.content? path).getD "" ++ text)
  | none => host

-- Looks at the clock, in nanoseconds. Beyond the last time foreseen it shows zero.
def now (host : Host) : Nat × Host :=
  (host.clock.headD 0, { host with clock := host.clock.tail })

-- Runs a command on a script. Runs beyond the last one foreseen print nothing.
def start (host : Host) (command : String) (run : Run) : Option RunOutput × Host :=
  if host.canStart command then
    (some (host.outputs.headD .silent),
      { host with outputs := host.outputs.tail, runs := host.runs ++ [run] })
  else (none, host)

end Host

end Qualify
