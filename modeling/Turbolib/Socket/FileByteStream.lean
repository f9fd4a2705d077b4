import Turbolib.Http.HttpByteStream

/-!
# Streams over a file descriptor

`FileByteStream` writes with `send`, which may take only the first bytes of what it is offered
and returns how many.

## Main definitions

* `Connection.send` — how much of a buffer is taken.
* `FileByteStream.write` — a stream over a connection.
-/

namespace Turbolib

/-- The bytes that have gone out, and how many each of the next calls of `send` takes at most.
Behind these the calls take all they are offered. -/
structure Connection where
  sent : Text
  quotas : List ℕ

namespace Connection

def room (c : Connection) (b : Buffer) : ℕ := min (c.quotas.headD b.1.length) b.1.length

/-- `send`, where it does not fail. -/
def send (c : Connection) (b : Buffer) : ℕ × Connection :=
  (c.room b, ⟨c.sent ++ b.1.take (c.room b), c.quotas.tail⟩)

end Connection

namespace FileByteStream

def write (c : Connection) (b : Buffer) : Int32 × Connection :=
  let (nbytes, c) := c.send b
  (Int32.ofNat nbytes, c)

def short : ShortStream Connection where
  write := write
  written := Connection.sent
  accepted := Connection.room
  accepted_le _ _ := Nat.min_le_right _ _
  written_write _ _ := rfl
  write_returns _ _ := rfl

end FileByteStream

end Turbolib
