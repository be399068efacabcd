import CallChart.Index.Catalog
import CallChart.Json.Codec

/-! Reading a catalog from the text of a manifest. -/
namespace CallChart.Catalog

/-- The catalog of a manifest whose relative files begin at `root`. -/
def ofText (s : String) (root : Path) : Except IndexError Catalog :=
  match (Json.read? s : Option Manifest) with
  | some m => .ok (ofManifest m root)
  | none => .error .malformed

/-- The catalog of a manifest file. Its files begin in the directory of the manifest. -/
def load (fs : Files) (path : Path) : Except IndexError Catalog :=
  match fs.read path with
  | .ok s => ofText s (path.parent?.getD ⟨""⟩)
  | .error fault => .error (.unreadable fault)

end CallChart.Catalog
