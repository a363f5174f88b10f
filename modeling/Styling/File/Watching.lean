import Styling.File.Decoding
import Styling.Sheet.Stylesheet

/-!
# Style sheets in files

A watched sheet is read from a file and read again whenever the modification time of the file has
moved forward.  The file is asked for its modification time first and for its bytes afterwards, and
it may change in between; a `FileView` is what these two questions find.

* `Stylesheet.loadBytes` reads the sheet of a file.
* `WatchedSheet.startFrom` and `WatchedSheet.reloadFrom` start to follow a file and look at it
  again.
* `Stylesheet.load`, `WatchedSheet.start` and `WatchedSheet.reload` are the same for a file that
  does not change while it is looked at.
-/

namespace Styling

/-- What a file holds and when it was changed. -/
structure FileState where
  bytes : List Nat
  modified : Int
  deriving DecidableEq, Repr

/-- What is found of a file: its modification time, and after that its bytes.  Each is missing if
the file is not there then or does not let itself be looked at. -/
structure FileView where
  modified : Option Int
  bytes : Option (List Nat)
  deriving DecidableEq, Repr

/-- What is found of a file that does not change while it is looked at. -/
def FileView.ofFile (file : Option FileState) : FileView :=
  ⟨file.map FileState.modified, file.map FileState.bytes⟩

/-- Why a sheet cannot be loaded. -/
inductive LoadError
  /-- The file is not there, or cannot be read. -/
  | missing
  | decoding (e : DecodeError)
  | fault (f : Fault)
  deriving DecidableEq, Repr

/-- The encoding of a sheet that does not name one. -/
def defaultCharset : String := "utf-8"

/-- Read the sheet that the bytes of a file hold, if there are any. -/
def Stylesheet.loadBytes (bytes : Option (List Nat)) (options : Options) :
    Traced LoadError Stylesheet := do
  match bytes with
  | none => Traced.ofExcept (.error .missing)
  | some bytes =>
    let text ← (Decoding.decode bytes defaultCharset).mapError .decoding
    (Stylesheet.read text options).mapError .fault

/-- Read the sheet of a file. -/
def Stylesheet.load (file : Option FileState) (options : Options) : Traced LoadError Stylesheet :=
  loadBytes (file.map FileState.bytes) options

/-- A sheet that follows a file. -/
structure WatchedSheet where
  path : String
  options : Options
  modified : Int
  sheet : Stylesheet

namespace WatchedSheet

/-- Start to follow a file that may change while it is looked at. -/
def startFrom (path : String) (options : Options) (view : FileView) :
    Traced LoadError WatchedSheet := do
  match view.modified with
  | none => Traced.ofExcept (.error .missing)
  | some modified =>
    let sheet ← Stylesheet.loadBytes view.bytes options
    return ⟨path, options, modified, sheet⟩

/-- Start to follow a file. -/
def start (path : String) (options : Options) (file : Option FileState) :
    Traced LoadError WatchedSheet :=
  startFrom path options (.ofFile file)

/-- Read the file again if it has changed: whether a new sheet was read, and the sheet that is
followed from now on.  The modification time is noted before the file is read. -/
def reloadFrom (w : WatchedSheet) (view : FileView) : Traced LoadError Bool × WatchedSheet :=
  match view.modified with
  | none => (⟨[.fileMissing w.path], .ok false⟩, w)
  | some modified =>
    if modified ≤ w.modified then (pure false, w)
    else
      let noted := { w with modified := modified }
      let loaded := Stylesheet.loadBytes view.bytes w.options
      match loaded.result with
      | .ok sheet =>
        (⟨loaded.events ++ [.sheetReloaded w.path], .ok true⟩, { noted with sheet := sheet })
      | .error e => (⟨loaded.events, .error e⟩, noted)

/-- Read a file again that does not change while it is looked at. -/
def reload (w : WatchedSheet) (file : Option FileState) : Traced LoadError Bool × WatchedSheet :=
  w.reloadFrom (.ofFile file)

end WatchedSheet

end Styling
