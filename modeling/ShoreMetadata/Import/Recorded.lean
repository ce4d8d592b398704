import ShoreMetadata.Error

/-! Computations that may fail and that note problems on the way. The notes
survive a failure. -/

namespace ShoreMetadata

structure Recorded (α : Type) where
  problems : List Problem
  result : Except Error α

namespace Recorded

def ok (a : α) : Recorded α :=
  ⟨[], .ok a⟩

def fail (e : Error) : Recorded α :=
  ⟨[], .error e⟩

def note (problem : Problem) : Recorded Unit :=
  ⟨[problem], .ok ()⟩

def ofExcept (result : Except Error α) : Recorded α :=
  ⟨[], result⟩

def andThen (first : Recorded α) (next : α → Recorded β) : Recorded β :=
  match first.result with
  | .ok a => ⟨first.problems ++ (next a).problems, (next a).result⟩
  | .error e => ⟨first.problems, .error e⟩

instance : Monad Recorded where
  pure := ok
  bind := andThen

end Recorded

end ShoreMetadata
