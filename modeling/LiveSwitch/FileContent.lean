/-!
# Contents of files

Documents, plans and settings come from files.  What is found under a path is given as a
value, so that reading files is left to the caller.

## Main definitions

* `FileContent` — what is found under a path.
-/

namespace LiveSwitch

/-- What is found under a path. -/
inductive FileContent where
  | missing
  /-- Something that cannot be opened, such as a path that goes on after a file. -/
  | blocked
  /-- Something that can be opened but not read, such as a directory. -/
  | unreadable
  | bytes (content : ByteArray)
  deriving Inhabited

namespace FileContent

/-- The file that holds a text. -/
def ofText (s : String) : FileContent := .bytes s.toUTF8

end FileContent

end LiveSwitch
