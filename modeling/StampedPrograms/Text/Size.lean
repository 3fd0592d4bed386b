/-!
The size of a text in bytes of UTF-8.
-/

namespace StampedPrograms

def byteLength (cs : List Char) : Nat :=
  cs.foldr (fun c size => c.utf8Size + size) 0

@[simp] theorem byteLength_nil : byteLength [] = 0 := rfl

@[simp] theorem byteLength_cons (c : Char) (cs : List Char) :
    byteLength (c :: cs) = c.utf8Size + byteLength cs := rfl

@[simp] theorem byteLength_append (cs ds : List Char) :
    byteLength (cs ++ ds) = byteLength cs + byteLength ds := by
  induction cs with
  | nil => simp
  | cons c cs ih => simp [ih, Nat.add_assoc]

end StampedPrograms
