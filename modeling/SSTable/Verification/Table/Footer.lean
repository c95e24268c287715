import SSTable.Model.ReferenceCrates
import SSTable.Verification.Table.Written

/-!
# Handles and footers are read back

Four integers of up to ten bytes each stand behind one another in a footer, without a length.  They
fit the area in front of the magic number, and each one ends where its decoder says.

Main results:

- Theorem {lit}`Footer.encode_frame`: the handles stay in front of the magic number.
- Theorem {lit}`Footer.decode_encode`: a footer is read back from the buffer it was encoded into.
- Theorem {lit}`codec_round_trip`: the same for every footer and every handle.
-/

namespace SSTable

open Foundation Foundation.Exec Foundation.Bytes

section

variable [Crates]

namespace BlockHandle

/-- A handle that was encoded into a buffer is read back, whatever comes to stand behind it. -/
theorem decode_of_encodeTo {h : BlockHandle} (hfits : h.Fits) {dst out : Bytes} {n : Nat}
    (hrun : h.encodeTo dst = .ok (n, out)) (rest : Bytes) :
    decode (out.take n ++ rest) = .ok (h, n) := by
  obtain ⟨-, heq⟩ := encodeTo_eq_ok_iff.mp hrun
  obtain ⟨rfl, rfl⟩ := Prod.mk.inj heq
  rw [List.take_left]
  exact decode_encode hfits rest

end BlockHandle

namespace Footer

variable {footer : Footer} {dst : Bytes}

/-- The handles are encoded behind one another, and they leave alone what stands
behind the area for them. -/
theorem encode_frame (h : footer.Short) (hlen : fullFooterLength ≤ dst.length) :
    ∃ s₁ out₁ s₂ out₂, footer.metaIndex.encodeTo dst = .ok (s₁, out₁) ∧
      footer.index.encodeTo (out₁.drop s₁) = .ok (s₂, out₂) ∧ s₁ + s₂ ≤ footerLength ∧
      (out₁.take s₁ ++ out₂).drop footerLength = dst.drop footerLength := by
  obtain ⟨hmeta, hindex⟩ := encode_handles h hlen
  have hbehind : (footer.metaIndex.encode ++ dst.drop footer.metaIndex.encode.length).drop
      footer.metaIndex.encode.length = dst.drop footer.metaIndex.encode.length := List.drop_left
  refine ⟨_, _, _, _, hmeta, (congrArg footer.index.encodeTo hbehind).trans hindex, h, ?_⟩
  rw [List.take_left, ← List.append_assoc]
  apply drop_overwrite
  rwa [List.length_append]

/-- A footer is read back from the front of the buffer it was encoded into. -/
theorem decode_encode (hmeta : footer.metaIndex.Fits) (hindex : footer.index.Fits)
    (hlen : fullFooterLength ≤ dst.length) :
    ∃ out, footer.encode dst = .ok out ∧ out.length = dst.length ∧
      out.drop fullFooterLength = dst.drop fullFooterLength ∧
      decode (out.take fullFooterLength) = .ok footer := by
  have hshort := short_of_fits hmeta hindex
  have hbytes := bytes_length hshort
  refine ⟨_, encode_into hshort hlen, ?_, ?_, ?_⟩
  · rw [List.length_append, List.length_drop, hbytes]
    omega
  · exact List.drop_left' hbytes
  · rw [List.take_left' hbytes]
    exact decode_bytes hshort hmeta hindex

end Footer

/-- A footer of any two handles is encoded into every buffer that is long enough, its handles do not
leave the area for them, and it is read back; and every handle is read back with its length,
whatever stands behind it. -/
theorem codec_round_trip :
    (∀ (footer : Footer) (dst : Bytes), footer.metaIndex.Fits → footer.index.Fits →
      fullFooterLength ≤ dst.length →
        (∃ s₁ out₁ s₂ out₂, footer.metaIndex.encodeTo dst = .ok (s₁, out₁) ∧
          footer.index.encodeTo (out₁.drop s₁) = .ok (s₂, out₂) ∧ s₁ + s₂ ≤ footerLength ∧
          (out₁.take s₁ ++ out₂).drop footerLength = dst.drop footerLength) ∧
        ∃ out, footer.encode dst = .ok out ∧ out.length = dst.length ∧
          out.drop fullFooterLength = dst.drop fullFooterLength ∧
          Footer.decode (out.take fullFooterLength) = .ok footer) ∧
    ∀ (h : BlockHandle) (dst : Bytes), h.Fits → h.encode.length ≤ dst.length →
      ∃ n out, h.encodeTo dst = .ok (n, out) ∧ n = h.encode.length ∧
        ∀ rest, BlockHandle.decode (out.take n ++ rest) = .ok (h, n) := by
  constructor
  · intro footer dst hmeta hindex hlen
    have hshort := Footer.short_of_fits hmeta hindex
    exact ⟨Footer.encode_frame hshort hlen, Footer.decode_encode hmeta hindex hlen⟩
  · intro h dst hfits hlen
    have hrun := BlockHandle.encodeTo_eq hlen
    exact ⟨_, _, hrun, rfl, BlockHandle.decode_of_encodeTo hfits hrun⟩

end

/-- The handle whose integers take the most bytes. -/
def widestHandle : BlockHandle where
  offset := wordLimit - 1
  size := wordLimit - 1

/-- Two of the widest handles, encoded over a buffer of ones. -/
theorem codec_round_trip_widest : letI := referenceCrates
    (∃ out, ({ metaIndex := widestHandle, index := widestHandle } : Footer).encode
        (List.replicate 48 255) = .ok out ∧ out.length = 48 ∧
      Footer.decode (out.take fullFooterLength) =
        .ok { metaIndex := widestHandle, index := widestHandle }) ∧
    ∃ n out, widestHandle.encodeTo (List.replicate 20 255) = .ok (n, out) ∧
      ∀ rest, BlockHandle.decode (out.take n ++ rest) = .ok (widestHandle, n) := by
  let := referenceCrates
  have hfits : widestHandle.Fits := ⟨by decide, by decide⟩
  constructor
  · obtain ⟨-, out, hencode, hlen, -, hdecode⟩ := codec_round_trip.1
      { metaIndex := widestHandle, index := widestHandle } (List.replicate 48 255) hfits hfits
      (by decide)
    exact ⟨out, hencode, hlen, hdecode⟩
  · obtain ⟨n, out, hencode, -, hdecode⟩ := codec_round_trip.2 widestHandle
      (List.replicate 20 255) hfits (by decide)
    exact ⟨n, out, hencode, hdecode⟩

end SSTable
