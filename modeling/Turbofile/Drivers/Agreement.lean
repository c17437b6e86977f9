import Turbofile.Compio.Serving
import Turbofile.Darwin.Serving

/-!
# The two drivers agree

Each driver answers a script as the file service does, so a program cannot tell
from its answers which of them it runs on.
-/

namespace Turbofile.Agreement

open Turbofile.FileService

/-- On one disk the same script gets the same answers from both drivers, and
finds the same files afterwards. -/
theorem drivers_agree {kernel : Kernel} {disk : Disk} {darwin : Darwin.Machine}
    {compio : Compio.OnDisk.Machine} (hfits : Fits kernel disk)
    (hdarwin : (Darwin.machines kernel disk).Reachable darwin)
    (hcompio : (Compio.OnDisk.machines kernel disk).Reachable compio)
    (hscript : darwin.calls.map Prod.fst = compio.calls.map Prod.fst) :
    List.Forall₂ Alike (darwin.calls.map Prod.snd) (compio.calls.map Prod.snd) ∧
      (darwin.pending = none → compio.pending = none → darwin.disk = compio.disk) := by
  obtain ⟨service, hserved, hstage⟩ := Darwin.serving_of_reachable hfits hdarwin
  obtain ⟨service', hserved', hstanding⟩ := Compio.OnDisk.serving_of_reachable hfits hcompio
  obtain ⟨halike, rfl⟩ := hserved.alike hserved' hscript
  exact ⟨halike, fun hpending hpending' =>
    (hstage.disk_eq hpending).trans (hstanding.disk_eq hpending').symm⟩

theorem drivers_agree_script :
    Darwin.plainRun.pending = none ∧ Compio.OnDisk.scriptRun.pending = none ∧
      List.Forall₂ Alike (Darwin.plainRun.calls.map Prod.snd)
        (Compio.OnDisk.scriptRun.calls.map Prod.snd) ∧
      (Darwin.plainRun.pending = none → Compio.OnDisk.scriptRun.pending = none →
        Darwin.plainRun.disk = Compio.OnDisk.scriptRun.disk) :=
  ⟨rfl, rfl, drivers_agree fits_none Darwin.reachable_plainRun Compio.OnDisk.reachable_scriptRun
    rfl⟩

end Turbofile.Agreement
