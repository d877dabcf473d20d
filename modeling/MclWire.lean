import MclWire.Fields
import MclWire.Tier0.Layout
import MclWire.Tier0.Statuses
import MclWire.Extension.Sizes
import MclWire.Extension.Capacity
import MclWire.Extension.Canonical
import MclWire.Extension.Resume
import MclWire.Duration
import MclWire.Untouched
import MclWire.Stable
import MclWire.Growing
import MclWire.Release
import MclWire.Waiting
import MclWire.Extension.Offences
import MclWire.Delivery
import MclWire.Inside
import MclWire.Registry.Complete
import MclWire.Benchmark.Run
import MclWire.Tier0.LayoutCheck
import MclWire.Vectors.ExtensionCheck
import MclWire.Vectors.Major1Published
