import StampedPrograms.Proofs.Digest
import StampedPrograms.Proofs.Program.Action
import StampedPrograms.Proofs.Program.Normal

/-!
What the text of a program determines: packs with one text have the same operations in the same order,
with alike arguments, and are admitted under the same policies.
-/

namespace StampedPrograms

namespace Block

def image (block : Block) : String × List (String × Value) :=
  (block.op, Json.image block.args)

theorem alike_of_image_eq {a b : Block} (h : a.image = b.image) : a.Alike b :=
  ⟨(Prod.mk.inj h).1, (Prod.mk.inj h).2⟩

theorem alike_toJson {a b : Block} (h : a.image = b.image) : (toJson a).Alike (toJson b) := by
  obtain ⟨hop, hargs⟩ := Prod.mk.inj h
  have hobject : Value.inOrder (.object a.args) = Value.inOrder (.object b.args) :=
    Json.alike_object.mpr hargs
  apply Json.alike_ofPairs
  rw [hop]
  exact congrArg (fun v => [("op", Value.string b.op), ("args", v)]) hobject

theorem image_eq_of_alike {a b : Block} (h : (toJson a).Alike (toJson b)) : a.image = b.image := by
  have hop := h.member? "op"
  have hargs := h.member? "args"
  rw [member?_op, member?_op, Option.map_some, Option.map_some] at hop
  rw [member?_args, member?_args, Option.map_some, Option.map_some] at hargs
  have hmembers := Json.alike_object.mp (Option.some.inj hargs)
  rw [image, image, Value.string.inj (Option.some.inj hop), hmembers]

end Block

namespace ProgramPack

theorem images_of_alike {blocks others : List Block} (h : (toJson blocks).Alike (toJson others)) :
    blocks.map Block.image = others.map Block.image := by
  have hitems : (blocks.map toJson).map Value.inOrder = (others.map toJson).map Value.inOrder :=
    Json.alike_array.mp h
  rw [List.map_map, List.map_map] at hitems
  exact map_eq_of_map_eq (fun _ _ hblock => Block.image_eq_of_alike hblock) hitems

/-- The text that is hashed for the program of a pack. -/
def text (pack : ProgramPack) : List Char :=
  namespacedText "program" pack

theorem canonicalValue_eq_of_text_eq {P Q : ProgramPack} (h : P.text = Q.text) :
    canonicalValue P = canonicalValue Q :=
  (canonicalValue_eq_of_namespacedText_eq h).2

theorem images_of_text_eq {P Q : ProgramPack} (hP : P.Ordered) (hQ : Q.Ordered) (h : P.text = Q.text) :
    P.blocks.map Block.image = Q.blocks.map Block.image := by
  have halike : (toJson P).Alike (toJson Q) :=
    Json.alike_of_ofJson_eq (ordered_toJson hP) (ordered_toJson hQ) (canonicalValue_eq_of_text_eq h)
  have hprogram := halike.member? "program"
  rw [member?_program, member?_program, Option.map_some, Option.map_some] at hprogram
  have hblocks := Json.Alike.member? (Option.some.inj hprogram) "blocks"
  rw [member?_blocks, member?_blocks, Option.map_some, Option.map_some] at hblocks
  exact images_of_alike (Option.some.inj hblocks)

theorem alike_of_images {blocks others : List Block}
    (h : blocks.map Block.image = others.map Block.image) : (toJson blocks).Alike (toJson others) := by
  apply Json.alike_array.mpr
  rw [List.map_map, List.map_map]
  exact map_eq_of_map_eq (fun _ _ himage => Block.alike_toJson himage) h

/-- Blocks with the same images leave the text as it is. -/
theorem text_eq_of_images {pack : ProgramPack} {blocks : List Block}
    (h : blocks.map Block.image = pack.blocks.map Block.image) :
    text { pack with program := { pack.program with blocks } } = pack.text := by
  have hblocks : Value.inOrder (toJson blocks) = Value.inOrder (toJson pack.blocks) := alike_of_images h
  have hprogram : Value.inOrder (toJson { pack.program with blocks : Program }) =
      Value.inOrder (toJson pack.program) :=
    Json.alike_ofPairs (congrArg
      (fun v => [("name", Value.string pack.program.name), ("entry", .string pack.program.entry),
        ("blocks", v)])
      hblocks)
  have hpack : (toJson { pack with program := { pack.program with blocks } : ProgramPack}).Alike
      (toJson pack) :=
    Json.alike_ofPairs (congrArg (fun v => [("format", Value.string pack.format), ("program", v)]) hprogram)
  rw [text, namespacedText, text, namespacedText, canonicalValue, hpack.ofJson_eq]
  rfl

/-- Admission looks at nothing but the operations of the blocks. -/
theorem authorize_eq (pack : ProgramPack) (policy : Policy) :
    pack.authorize policy =
      match (pack.blocks.map Block.op).find? fun op => !policy.allowsRoute op with
      | some op => .error (.admissionDenied op)
      | none => .ok () := by
  rw [authorize, List.find?_map, Function.comp_def]
  cases pack.blocks.find? fun block => !policy.allowsRoute block.op <;> rfl

theorem ops_eq_of_images {P Q : ProgramPack}
    (h : P.blocks.map Block.image = Q.blocks.map Block.image) :
    P.blocks.map Block.op = Q.blocks.map Block.op := by
  have hops := congrArg (List.map Prod.fst) h
  rw [List.map_map, List.map_map] at hops
  exact hops

theorem authorize_eq_of_images {P Q : ProgramPack}
    (h : P.blocks.map Block.image = Q.blocks.map Block.image) (policy : Policy) :
    P.authorize policy = Q.authorize policy := by
  rw [authorize_eq, authorize_eq, ops_eq_of_images h]

end ProgramPack

end StampedPrograms
