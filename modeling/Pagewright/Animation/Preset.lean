import Pagewright.Animation.Basic

/-! The built-in animations. -/

namespace Pagewright

namespace Easing

def easeOut : String := "cubic-bezier(0, 0, 0.58, 1.0)"
def easeInOut : String := "cubic-bezier(0.42, 0, 0.58, 1.0)"
def easeOutBack : String := "cubic-bezier(0.175, 0.885, 0.32, 1.275)"

end Easing

structure PresetTrack where
  property : String
  samples : List (Number × Scalar)
  easing : String

structure Preset where
  id : String
  name : String
  category : String
  tracks : List PresetTrack
  duration : Number

namespace Preset

def fadeIn : Preset :=
  ⟨"fade-in", "Fade In", "Fade",
    [⟨"opacity", [(0, .number 0), (1000, .number 1)], Easing.easeInOut⟩], 1000⟩

def fadeOut : Preset :=
  ⟨"fade-out", "Fade Out", "Fade",
    [⟨"opacity", [(0, .number 1), (1000, .number 0)], Easing.easeInOut⟩], 1000⟩

def slideInRight : Preset :=
  ⟨"slide-in-right", "Slide In Right", "Slide",
    [⟨"transform.translateX", [(0, .text "100%"), (1000, .text "0%")], Easing.easeOut⟩,
     ⟨"opacity", [(0, .number 0), (750, .number 1)], Easing.easeInOut⟩], 1000⟩

def bounceIn : Preset :=
  ⟨"bounce-in", "Bounce In", "Bounce",
    [⟨"transform.scale",
        [(0, .number 0.3), (500, .number 1.1), (750, .number 0.9), (1000, .number 1)],
        Easing.easeOutBack⟩,
     ⟨"opacity", [(0, .number 0), (500, .number 1)], Easing.easeInOut⟩], 1000⟩

def all : List Preset := [fadeIn, fadeOut, slideInRight, bounceIn]

def find? (id : String) : Option Preset := all.find? fun p => p.id = id

end Preset

end Pagewright
