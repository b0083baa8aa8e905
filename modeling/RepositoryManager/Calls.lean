import RepositoryManager.Lib.Interaction
import RepositoryManager.Credential

/-! # What the server asks of its surroundings

The system calls of the server, their replies, and the C library, OpenSSL and
parser it is linked with. OpenSSL, the lexer and parser, `mktime`, `gmtime` and
`rand` are arbitrary functions; sockets, the file system, the clock and XSB reply
call by call. A note is no call of the program: it records in the history that a
method has returned.
-/

namespace RepositoryManager

open ByteString Interaction

abbrev Digest := Fin 16 → UInt8

/-- The parts of OpenSSL that are called, as functions of what is passed to them. -/
structure OpenSSL where
  Key : Type
  /-- Whether `BIO_new_mem_buf` gives a BIO for this text. -/
  bioNewMemBuf : Str → Bool
  pemReadBioRsaPubkey : Str → Option Key
  /-- What `BIO_read` stores of the base64 decoding of a text; `none` is -1. -/
  bioRead : Str → Option Str
  /-- `MD5(msg, len, _)` -/
  md5 : Str → Nat → Digest
  rsaSize : Key → Nat
  /-- `RSA_verify(NID_md5, md5Digest, MD5_DIGEST_LENGTH, sigbuf, siglen, key)` -/
  rsaVerify : Digest → Str → Nat → Key → Bool

/-- What the children of a fork and their parent are told. -/
inductive Fork where
  | child
  | parent
  | failed
  deriving DecidableEq

/-- How the thread of a query ends: it cannot be created, it ends by itself with the
    output it read (or without a pipe), or it is still there when the signal comes. -/
inductive QueryEnd where
  | noThread
  | finished (out : Option Str)
  | unfinished
  deriving DecidableEq

/-- A method has returned. -/
inductive Note where
  /-- `processMsg` built a credential from a message. -/
  | built (msg : Str) (c : Credential)
  /-- `verifyCredential` returned, and left the credential as `after`. -/
  | verified (c after : Credential) (b : Bool)
  /-- `generateChallenge` drew from the generator after `draws` earlier draws. -/
  | challenged (draws : Nat) (challenge : Str)
  /-- `authenticateClient` returned for a public key, a response and a challenge. -/
  | authenticated (pubKey response challenge : Str) (b : Bool)
  | binderWritten (b : Bool)
  | executed (query : Str) (b : Bool)

inductive Call where
  | accept
  | fork
  | read (fd : Int) (len : Nat)
  | write (fd : Int) (text : Str)
  | close (fd : Int)
  /-- `time(NULL)` -/
  | time
  /-- `Timer::getElapsedNSecs` -/
  | elapsed
  /-- Opening `rlf_tmp.P` for writing and storing a text in it. -/
  | saveBinder (text : Str)
  | removeBinder
  /-- `popen` of a command in the query thread. -/
  | popen (cmd : Str)
  /-- The process ends without returning from the method. -/
  | abort
  | note (n : Note)

@[reducible] def Reply : Call → Type
  | .accept => Int
  | .fork => Fork
  | .read _ _ => Option Str
  | .write _ _ => Int
  | .close _ => Unit
  | .time => Nat → Int
  | .elapsed => Nat
  | .saveBinder _ => Bool
  | .removeBinder => Unit
  | .popen _ => Option Str × QueryEnd
  | .abort => Empty
  | .note _ => Unit

abbrev Server (α : Type) := Prog Call Reply α

abbrev History := List (Event Call Reply)

/-- An exception nobody catches, a wild read, or a signal. -/
def abort {α : Type} : Server α := .call .abort Empty.elim

def note (n : Note) : Server Unit := Prog.perform (C := Call) (.note n)

end RepositoryManager
