import LinuxDevelopment.Simplefs.StoreInvariant

/-!
# simplefs: listing a directory in several calls

`simplefs_iterate` calls `dir_emit` for every record of the directory and does
not look at the result, and any position but 0 means to it that all is done. A
caller whose buffer is full after some entries therefore never gets the others.
-/

namespace LinuxDevelopment.Simplefs

open Volume

/-- The name of an emitted entry, as a C string, and its number. -/
def DirEmit.entry (e : DirEmit) : Name × UInt64 := (e.name.takeWhile (· != 0), e.ino)

/-- The first `n` records of a directory block. -/
def records (b : Buffer) (n : Nat) : List (Name × UInt64) :=
  (List.range' 0 n).map fun k => (recordName b k, recordIno b k)

section Listing

variable {tid : Nat} {env : Env} {w : World} {v : Volume} {dir : Path} {i : Nat}
  {q : SimplefsInode}

end Listing

section Runs

variable {dev : Image} {es : List Event} {w : World} {tid : Nat} {env : Env} {dir : Path}

end Runs

end LinuxDevelopment.Simplefs
