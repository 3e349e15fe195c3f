import PolkadotSdk.ForkTree

/-!
# Errors of the fork tree operations

Which errors leave the tree as it was. Every guard that returns `Revert`,
`Duplicate` or `UnfinalizedAncestor` runs before the first write to `self`, so
those errors are clean; `import` is clean for oracle errors too, since it asks the
oracle only through `find_node_index_where`. The finalization operations do not
share this: they move the roots out of `self` and then query the oracle.
-/

namespace PolkadotSdk.ForkTree

variable {H N V E : Type} [DecidableEq H] [LinearOrder N]
variable (isDescendentOf : H → H → Except E Bool)

/-- `import` writes nothing before it succeeds. -/
theorem import_error {hash : H} {number : N} {data : V} {t t' : ForkTree H N V} {e : Error E}
    (h : ForkTree.import isDescendentOf hash number data t = .error e t') : t' = t := by
  unfold ForkTree.import at h
  split at h
  · cases h; rfl
  · split at h
    · cases h; rfl
    · split at h
      · cases h; rfl
      · cases h
    · split at h
      · cases h
      · split at h
        · cases h; rfl
        · cases h

/-- `finalize` fails cleanly on `Revert` and `UnfinalizedAncestor`: only oracle
errors can be raised after the roots were moved out. -/
theorem finalize_error_not_client {hash : H} {number : N} {t t' : ForkTree H N V} {e : Error E}
    (h : finalize isDescendentOf hash number t = .error e t') (he : ∀ c, e ≠ .client c) :
    t' = t := by
  unfold finalize at h
  split at h
  · cases h; rfl
  · split at h
    · cases h
    · split at h
      · cases h; rfl
      · cases h; rfl
      · split at h
        · cases h
          exact absurd rfl (he _)
        · cases h

/-- A failing oracle makes `finalize` return an error with the roots gone: the
retain loop has taken `self.roots` and pushed none of them back. -/
theorem finalize_client_error_drops_roots :
    finalize (fun _ _ => .error ()) 2 1 (⟨[⟨1, 5, (), []⟩], none⟩ : ForkTree ℕ ℕ Unit) =
      .error (.client ()) ⟨[], none⟩ := rfl

end PolkadotSdk.ForkTree
