import Aurade.Fs.Tree

/-!
# The error of the service

`Error` is the one error type of the service, with the mapping from errnos: the kinds the page tells
apart have constructors of their own, and everything else keeps its number. The texts are kept as
the pieces they are formatted from.
-/

namespace Aurade.Fs

/-- A piece of a formatted text. -/
inductive Frag
  | str (s : String)
  | path (p : PathBuf)
  | name (b : Bytes)
  | num (n : ℕ)
  deriving DecidableEq

/-- A formatted text. -/
abbrev Msg := List Frag

/-- What went wrong, in terms the page can act on. -/
inductive Error
  | notFound (what : Msg)
  | denied (what : Msg)
  | exists_ (what : Msg)
  | escapes (what : Msg)
  | readOnly (what : Msg)
  | badRequest (what : Msg)
  | io (context : Msg) (source : Errno)
  | conflict (what : Msg)
  | unsupported (what : Msg)
  | tool (tool message : Msg)
  | needsPassword (what : Msg)
  deriving DecidableEq

namespace Error

/-- `Error::io`: the kinds the page treats specially are told apart here. -/
def ofErrno (context : Msg) : Errno → Error
  | .noent => notFound context
  | .acces | .perm => denied context
  | .exist => exists_ context
  | e => io context e

/-- `errno_to_error`: a link where none is followed is a refusal rather than a failure. -/
def ofRootErrno (rel : PathBuf) : Errno → Error
  | .loop => escapes [.path rel]
  | e => ofErrno [.path rel] e

/-- `Error::no_space`. -/
def noSpace (context : Msg) : Error := io context .nospc

theorem ofErrno_eq_io {context c : Msg} {e s : Errno} (h : ofErrno context e = io c s) : e = s := by
  cases e <;> simp_all [ofErrno]

theorem ofRootErrno_eq_io {rel : PathBuf} {c : Msg} {e s : Errno}
    (h : ofRootErrno rel e = io c s) : e = s := by
  unfold ofRootErrno at h
  split at h
  · simp at h
  · exact ofErrno_eq_io h

end Error

end Aurade.Fs
