import Mathlib.Data.List.Nodup

namespace Obase
set_option autoImplicit true

variable [DecidableEq κ] {key : α → κ}

end Obase
