import InterfaceIndex.Text.Utf8
/-!
Where archives are downloaded from and where links to sources point to.
-/
namespace InterfaceIndex

/-- The two web addresses of a run. -/
structure Endpoints where
  /-- Directory that serves the release archives. -/
  downloadUrl : String := "https://storage.googleapis.com/golang"
  /-- Web root of the source repository. -/
  repositoryUrl : String := "https://github.com/golang/go"
  deriving DecidableEq, Repr

namespace Endpoints

/-- A text without the slashes at its end. -/
def trimSlashes (url : String) : String :=
  String.ofList (url.toList.reverse.dropWhile (· == '/')).reverse

/-- The usual endpoints, each replaced by a setting of the environment where there is one. A
setting that is not text counts as absent. -/
def ofSettings (download repository : Option (List UInt8)) : Endpoints :=
  let usual : Endpoints := {}
  { downloadUrl := (download.bind Utf8.decode?).getD usual.downloadUrl
    repositoryUrl := (repository.bind Utf8.decode?).getD usual.repositoryUrl }

/-- Address of the source archive of a release. -/
def archiveAddress (e : Endpoints) (version : String) : String :=
  trimSlashes e.downloadUrl ++ "/go" ++ version ++ ".src.tar.gz"

/-- Address of a line of a file as it was released. -/
def lineLink (e : Endpoints) (version path : String) (line : Nat) : String :=
  trimSlashes e.repositoryUrl ++ "/blob/go" ++ version ++ "/" ++ path ++ "#L" ++
    String.ofList (Nat.toDigits 10 line)

end Endpoints

end InterfaceIndex
