import RiscvMos.FsImage

/-! The bitmap in the image: a set bit for each block that is free. -/
namespace RiscvMos.Fsformat
open ByteMem HostWord Function Budget

section
variable {F : FsH} {s s' : Tool} {b i : ℕ}

end

end RiscvMos.Fsformat
