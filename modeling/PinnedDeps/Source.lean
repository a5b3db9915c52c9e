/-! Places in a text. Lines and columns count from one and every character is one column wide;
only a line feed starts a new line. A character, a token or a complaint is carried together with
its place, so that no later stage has to count. -/

namespace PinnedDeps

structure Position where
  line : Nat
  column : Nat
  deriving DecidableEq, Repr

namespace Position

def start : Position := ⟨1, 1⟩

/-- The place just after a character. -/
def after (p : Position) (c : Char) : Position :=
  if c = '\n' then ⟨p.line + 1, 1⟩ else ⟨p.line, p.column + 1⟩

/-- The place just after a text. -/
def afterAll (p : Position) (cs : List Char) : Position := cs.foldl after p

end Position

/-- A thing and the place where it starts. -/
structure Located (α : Type) where
  pos : Position
  item : α
  deriving DecidableEq, Repr

namespace Source

/-- The characters of a text with their places, in reverse and in front of `done`. -/
def locateOnto (done : List (Located Char)) (p : Position) : List Char → List (Located Char)
  | [] => done
  | c :: cs => locateOnto (⟨p, c⟩ :: done) (p.after c) cs

/-- The characters of a text that starts at `p`, each with its place. -/
def locate (p : Position) (cs : List Char) : List (Located Char) :=
  (locateOnto [] p cs).reverse

theorem locateOnto_eq (done : List (Located Char)) (p : Position) (cs : List Char) :
    locateOnto done p cs = locateOnto [] p cs ++ done := by
  induction cs generalizing done p with
  | nil => rfl
  | cons c cs ih => rw [locateOnto, ih, locateOnto, ih [⟨p, c⟩]]; simp

@[simp]
theorem locate_nil (p : Position) : locate p [] = [] := rfl

@[simp]
theorem locate_cons (p : Position) (c : Char) (cs : List Char) :
    locate p (c :: cs) = ⟨p, c⟩ :: locate (p.after c) cs := by
  rw [locate, locateOnto, locateOnto_eq]; simp [locate]

end Source

end PinnedDeps
