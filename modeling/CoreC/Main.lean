import CoreC.CommandLine

/-! # The executable -/

open CoreC

def readFailure : IO.Error → String
  | .noFileOrDirectory .. => "No such file or directory (os error 2)"
  | other => toString other

def main (args : List String) : IO UInt32 := do
  let keys := ["OMP_NUM_THREADS", "OMP_THREAD_LIMIT", "OMP_DYNAMIC", "OMP_NESTED",
    "OMP_MAX_ACTIVE_LEVELS", "OMP_SCHEDULE"]
  let set ← keys.filterMapM fun key => return (← IO.getEnv key).map (key, ·)
  let outcome ← match CommandLine.prepare (fun key => set.lookup key) args with
    | .error refusal => pure (CommandLine.refuse refusal)
    | .ok invocation => do
        let contents ← (IO.FS.readFile invocation.path).toBaseIO
        pure (CommandLine.execute invocation (contents.mapError readFailure))
  IO.print outcome.stdout
  IO.eprint outcome.stderr
  return outcome.exitCode.toUInt32
