import CommandLink.Frame.Coverage
import CommandLink.Proofs.Checksum.Bits

namespace CommandLink.Checksum

/-- A part of a block as a register is given it: one octet alone, or several
in one go. -/
inductive Piece where
  | octet (b : UInt8)
  | span (bs : List UInt8)

def Piece.content : Piece → List UInt8
  | .octet b => [b]
  | .span bs => bs

namespace Register

def feed (r : Register) : Piece → Register
  | .octet b => r.add b
  | .span bs => r.addAll bs

theorem feed_eq (r : Register) (p : Piece) : r.feed p = r.addAll p.content := by
  cases p with
  | octet b => rfl
  | span bs => rfl

theorem addAll_append (r : Register) (bs bs' : List UInt8) :
    r.addAll (bs ++ bs') = (r.addAll bs).addAll bs' := List.foldl_append

/-- Where a block is cut does not matter. -/
theorem foldl_feed (r : Register) (ps : List Piece) :
    ps.foldl feed r = r.addAll (ps.flatMap Piece.content) := by
  induction ps generalizing r with
  | nil => rfl
  | cons p ps ih => rw [List.foldl_cons, ih, feed_eq, List.flatMap_cons, addAll_append]

end Register

theorem ofTable_eq_ofBits (c : UInt16) (bs : List UInt8) : ofTable c bs = ofBits c bs := by
  rw [ofTable, Register.addAll_eq]

theorem checksum_tagAndPayload (t : Tag) (payload : List UInt8) :
    Coverage.checksum .tagAndPayload t payload = ofTable seed (t.toOctets ++ payload) := by
  rw [Coverage.checksum, ofTable, Register.addAll_append]

/-- The table, the eight shifts of each octet and a register that is fed piece by
piece compute one value, and the checksum of a frame is that value for what its
coverage names. -/
theorem computations_agree (start : UInt16) (ps : List Piece) :
    ofTable start (ps.flatMap Piece.content) = ofBits start (ps.flatMap Piece.content) ∧
      (ps.foldl Register.feed ⟨start⟩).value = ofTable start (ps.flatMap Piece.content) ∧
      ∀ (t : Tag) (payload : List UInt8),
        Coverage.checksum .tagAndPayload t payload = ofTable seed (t.toOctets ++ payload) ∧
          Coverage.checksum .payloadOnly t payload = ofTable seed payload := by
  refine ⟨ofTable_eq_ofBits _ _, ?_, fun t payload => ⟨checksum_tagAndPayload t payload, rfl⟩⟩
  rw [Register.foldl_feed]
  rfl

end CommandLink.Checksum
