import Workshop2018.Screens.Overlap
import Workshop2018.Screens.Order
import Workshop2018.Screens.Program
import Workshop2018.Screens.Container
import Workshop2018.Network.Retriers
