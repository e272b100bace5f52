import InterfaceIndex.CommandLine
import InterfaceIndex.Stream.Source
/-!
The program: arguments and environment in, table and diagnostics out. It brings no network of its
own, so every host counts as out of reach.
-/
namespace InterfaceIndex

/-- A setting of the environment, as bytes. -/
def setting (name : String) : IO (Option (List UInt8)) := do
  return (← IO.getEnv name).map Utf8.encode

end InterfaceIndex

open InterfaceIndex in
def main (arguments : List String) : IO UInt32 := do
  let download ← setting "GOINTERFACES_DOWNLOAD_URL"
  let repository ← setting "GOINTERFACES_REPOSITORY_URL"
  let filter := LogFilter.ofSetting (← IO.getEnv "RUST_LOG")
  let host : Host Source := .unreachable
  let outcome :=
    CommandLine.run host (Endpoints.ofSettings download repository) filter arguments
  for line in outcome.diagnostics do
    IO.eprintln line
  IO.print outcome.output
  return outcome.exitStatus.toUInt32
