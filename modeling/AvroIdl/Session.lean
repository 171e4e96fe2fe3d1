import AvroIdl.Path

/-!
# Import sessions

What all imports of one compilation share: the directories that are searched, the files that have
been taken in, and the chain of files that are being compiled. Files are known by what their paths
say, so paths are kept plain.
-/
namespace AvroIdl

structure Session where
  searchDirectories : List Path := []
  visited : List Path := []
  /-- The files being compiled, the outermost first. -/
  stack : List Path := []
  deriving DecidableEq, Repr

namespace Session

/-- The greatest length of the chain. -/
def maxDepth : Nat := 64

def isVisited (s : Session) (p : Path) : Bool := s.visited.contains p.plain

def markVisited (s : Session) (p : Path) : Session :=
  if s.isVisited p then s else { s with visited := p.plain :: s.visited }

@[simp]
theorem isVisited_markVisited (s : Session) (p : Path) : (s.markVisited p).isVisited p = true := by
  unfold markVisited
  split
  · assumption
  · simp [isVisited]

def isInProgress (s : Session) (p : Path) : Bool := s.stack.contains p.plain

def enter (s : Session) (p : Path) : Session := { s with stack := s.stack ++ [p.plain] }

def leave (s : Session) : Session := { s with stack := s.stack.dropLast }

@[simp]
theorem leave_enter (s : Session) (p : Path) : (s.enter p).leave = s := by
  simp [enter, leave]

def depth (s : Session) : Nat := s.stack.length

/-- The chain from the outermost file to a further one. -/
def describeChain (s : Session) (next : Path) : Text :=
  Text.join " -> " ((s.stack ++ [next]).map Path.text)

end Session

end AvroIdl
